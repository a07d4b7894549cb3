import LearningOS.Run.Priority
import LearningOS.X86.Pic
import Mathlib.Data.Option.Basic

namespace LearningOS
open X86 Priority

/-- The initialization of both controllers, up to their masks. -/
def picSetup (mask₁ mask₂ : UInt8) (c : PicPair) : PicPair :=
  let writes : List (Nat × UInt8) :=
    [(0x20, 0x11), (0xA0, 0x11), (0x21, 0x20), (0xA1, 0x28), (0x21, 0x04), (0xA1, 0x02), (0x21, 0x01), (0xA1, 0x01),
      (0x21, mask₁), (0xA1, mask₂)]
  writes.foldl (fun c w => c.outb w.1 w.2) c

/-- `init_pic` of `idt.c`. -/
def initPic (c : PicPair) : PicPair := picSetup 0xEC 0xFF c

def picSendEoi (c : PicPair) (intNo : UInt8) : PicPair :=
  (if intNo ≥ 40 then c.outb 0xA0 0x20 else c).outb 0x20 0x20

def exceptionNames : List String :=
  ["Divide By Zero", "Debug", "Non Maskable Interrupt", "Breakpoint", "Overflow", "Bound Range Exceeded",
    "Invalid Opcode", "Device Not Available", "Double Fault", "Coprocessor Segment Overrun", "Invalid TSS",
    "Segment Not Present", "Stack-Segment Fault", "General Protection Fault", "Page Fault", "Reserved",
    "x87 Floating-Point Exception", "Alignment Check", "Machine Check", "SIMD Floating-Point Exception",
    "Virtualization Exception", "Control Protection Exception", "Reserved", "Reserved", "Reserved", "Reserved",
    "Reserved", "Reserved", "Hypervisor Injection Exception", "VMM Communication Exception", "Security Exception",
    "Reserved"]

/-- What `irq_handler` does with an interrupt: a handler that is missing is a warning. -/
inductive Dispatch (H : Type)
  | panicRegs (name : String)
  | syscall
  | irq (n : Fin 16) (handler : Option H)
  | ignored

variable {H : Type}

def registerIrqHandler (handlers : Fin 16 → Option H) (irq : UInt8) (handler : H) : Fin 16 → Option H :=
  if inside : irq.toNat < 16 then Function.update handlers ⟨irq.toNat, inside⟩ (some handler) else handlers

def irqHandler (handlers : Fin 16 → Option H) (intNo : UInt32) : Dispatch H :=
  if intNo < 32 then .panicRegs (exceptionNames.getD intNo.toNat "Unknown Exception")
  else if intNo = 128 then .syscall
  else if 32 ≤ intNo ∧ intNo ≤ 47 then
    let irq : Fin 16 := ⟨(intNo - 32).toNat % 16, Nat.mod_lt _ (Nat.succ_pos 15)⟩
    .irq irq (handlers irq)
  else .ignored

/-- The controllers, the handlers and the processor: `saved` is the interrupt flag of the code
that was interrupted, `served` and `trapped` are the calls of handlers so far, for a line and for
`int $0x20`, and a phase knows the number of its interrupt. -/
structure IrqMachine (H : Type) where
  pics : PicPair
  handlers : Fin 16 → Option H
  enabled : Bool
  saved : Bool
  phase : Phase UInt8
  served : List (Fin 16 × Option H)
  trapped : List (Fin 16 × Option H)

/-- Devices may raise their lines at any time, also while a handler runs. `trap` is the
`int $0x20` of the scheduler, which also a system call reaches, with the flag clear; and `resume`
may go on in a task with a flag of its own. -/
inductive IrqEvent (H : Type)
  | raise (n : Fin 16)
  | flag (enabled : Bool)
  | register (irq : UInt8) (h : H)
  | accept
  | trap
  | call
  | finish
  | resume (switched : Option Bool)

/-- One step: the gates clear the interrupt flag, and the `iret` of `common_stub`, which comes
before the `sti` has an effect, takes it from the frame. -/
def IrqMachine.exec (s : IrqMachine H) : IrqEvent H → Option (IrqMachine H)
  | .raise n => some { s with pics := s.pics.raise n }
  | .flag enabled =>
    match s.phase with
    | .idle => some { s with enabled }
    | _ => none
  | .register irq h =>
    match s.phase with
    | .idle => some { s with handlers := registerIrqHandler s.handlers irq h }
    | _ => none
  | .accept =>
    match s.phase with
    | .idle =>
      if s.enabled then
        s.pics.acknowledge.map fun (pics, v) =>
          { s with pics, phase := .entered false v, saved := true, enabled := false }
      else none
    | _ => none
  | .trap =>
    match s.phase with
    | .idle => some { s with phase := .entered true 0x20, saved := s.enabled, enabled := false }
    | _ => none
  | .call =>
    match s.phase with
    | .entered trap v =>
      match irqHandler s.handlers v.toUInt32 with
      | .irq n h =>
        if trap then some { s with phase := .called trap v, trapped := s.trapped ++ [(n, h)] }
        else some { s with phase := .called trap v, served := s.served ++ [(n, h)] }
      | _ => none
    | _ => none
  | .finish =>
    match s.phase with
    | .called _ v => some { s with pics := picSendEoi s.pics v, phase := .returned }
    | _ => none
  | .resume switched =>
    match s.phase with
    | .returned => some { s with phase := .idle, enabled := switched.getD s.saved }
    | _ => none

/-- The state after some events, if they can all happen. -/
def IrqMachine.run (s : IrqMachine H) (events : List (IrqEvent H)) : Option (IrqMachine H) :=
  events.foldlM IrqMachine.exec s

/-- An event as one of a server of sixteen lines. -/
def IrqEvent.view : IrqEvent H → Event (Fin 16) H
  | .raise n => .raise n
  | .flag enabled => .flag enabled
  | .register irq h => .register (if inside : irq.toNat < 16 then some ⟨irq.toNat, inside⟩ else none) h
  | .accept => .accept
  | .trap => .trap ⟨0, Nat.succ_pos 15⟩
  | .call => .call
  | .finish => .finish
  | .resume switched => .resume switched

/-- The server that the kernel and its controllers are to be. -/
abbrev IrqServer (H : Type) := Server (Fin 16) H

/-- A phase of the machine is one of the server: the number of the interrupt is that of
its line, which is the only one in service up to its end, if the line asked for it. -/
def PhaseAgrees (c : PicPair) : Phase UInt8 → Phase (Fin 16) → Prop
  | .idle, .idle => c.Idle
  | .entered trap v, .entered trap' n => trap = trap' ∧ v = UInt8.ofNat (0x20 + n) ∧ c.InService trap n
  | .called trap v, .called trap' n => trap = trap' ∧ v = UInt8.ofNat (0x20 + n) ∧ c.InService trap n
  | .returned, .returned => c.Idle
  | _, _ => False

/-- The machine and the server agree. -/
structure IrqAgrees (mask₁ mask₂ : UInt8) (s : IrqMachine H) (a : IrqServer H) : Prop where
  ready : s.pics.Ready mask₁ mask₂
  pending : a.pending = s.pics.pending
  handlers : a.handlers = s.handlers
  enabled : a.enabled = s.enabled
  saved : a.saved = s.saved
  phase : PhaseAgrees s.pics s.phase a.phase
  served : a.served = s.served
  trapped : a.trapped = s.trapped

variable {mask₁ mask₂ : UInt8}

/-- Whatever the controllers were doing, they are ready and idle after their set-up. -/
theorem picSetup_ready (mask₁ mask₂ : UInt8) (c : PicPair) :
    (picSetup mask₁ mask₂ c).Ready mask₁ mask₂ ∧ (picSetup mask₁ mask₂ c).Idle ∧
      ∀ n, (picSetup mask₁ mask₂ c).pending n = false := by
  have master : (picSetup mask₁ mask₂ c).master = ⟨0, false, true, 0x20, false, fun _ => false, fun _ => false,
      bits mask₁⟩ := rfl
  have slave : (picSetup mask₁ mask₂ c).slave = ⟨0, false, true, 0x28, false, fun _ => false, fun _ => false,
      bits mask₂⟩ := rfl
  refine ⟨⟨?_, ?_, ?_, ?_⟩, ⟨fun i => ?_, fun i => ?_⟩, fun n => ?_⟩
  · rw [master, slave]
    exact ⟨rfl, rfl⟩
  · rw [master, slave]
    exact ⟨rfl, rfl⟩
  · rw [master, slave]
    exact ⟨rfl, rfl⟩
  · rw [master, slave]
    exact ⟨rfl, rfl⟩
  · rw [master]
  · rw [slave]
  · rw [PicPair.pending, master, slave]
    simp

/-- The number of an interrupt tells which controllers it came through. -/
theorem irqNumber (n : Fin 16) : (UInt8.ofNat (0x20 + n) ≥ 40 ↔ ¬ n.val < 8) ∧
    ¬ (UInt8.ofNat (0x20 + n)).toUInt32 < 32 ∧ (UInt8.ofNat (0x20 + n)).toUInt32 ≠ 128 ∧
    32 ≤ (UInt8.ofNat (0x20 + n)).toUInt32 ∧ (UInt8.ofNat (0x20 + n)).toUInt32 ≤ 47 ∧
    ((UInt8.ofNat (0x20 + n)).toUInt32 - 32).toNat % 16 = n := by
  revert n
  decide

theorem irqHandler_line (handlers : Fin 16 → Option H) (n : Fin 16) :
    irqHandler handlers (UInt8.ofNat (0x20 + n)).toUInt32 = .irq n (handlers n) := by
  obtain ⟨_, exception, call, low, high, same⟩ := irqNumber n
  simp only [irqHandler, if_neg exception, if_neg call, if_pos (And.intro low high), same]

/-- The end of an interrupt that is sent for the line in service leaves none, and all
requests. -/
theorem picSendEoi_idle {c : PicPair} {n : Fin 16} (ready : c.Ready mask₁ mask₂) (serves : c.Serves n) :
    (picSendEoi c (UInt8.ofNat (0x20 + n))).Ready mask₁ mask₂ ∧ (picSendEoi c (UInt8.ofNat (0x20 + n))).Idle ∧
      (picSendEoi c (UInt8.ofNat (0x20 + n))).pending = c.pending := by
  have both := (irqNumber n).1
  have command (p : Pic) : p.writeCommand 0x20 = p.endOfInterrupt := rfl
  have done : picSendEoi c (UInt8.ofNat (0x20 + n)) =
      ⟨{ c.master with isr := fun _ => false }, { c.slave with isr := fun _ => false }⟩ := by
    unfold picSendEoi
    unfold PicPair.Serves at serves
    split at serves
    · rename_i half
      have slave : { c.slave with isr := fun _ => false } = c.slave := by
        rw [← funext serves.2]
      rw [if_neg (both.not.mpr (not_not.mpr half)), slave, ← Pic.endOfInterrupt_only serves.1]
      rfl
    · rename_i half
      rw [if_pos (both.mpr half), ← Pic.endOfInterrupt_only serves.1, ← Pic.endOfInterrupt_only serves.2]
      rfl
  rw [done]
  exact ⟨⟨ready.expect, ready.autoEoi, ready.base, ready.masks⟩, ⟨fun _ => rfl, fun _ => rfl⟩, rfl⟩

/-- The end of an interrupt that a program has made: there is none in service to end. -/
theorem picSendEoi_trap {c : PicPair} (idle : c.Idle) (v : UInt8) : picSendEoi c v = c := by
  have master : c.master.writeCommand 0x20 = c.master := Pic.endOfInterrupt_idle idle.1
  have slave : c.slave.writeCommand 0x20 = c.slave := Pic.endOfInterrupt_idle idle.2
  have first : c.outb 0x20 0x20 = c := congrArg (fun p => PicPair.mk p c.slave) master
  have second : c.outb 0xA0 0x20 = c := congrArg (PicPair.mk c.master) slave
  rw [picSendEoi, second, ite_self, first]

theorem picSendEoi_done {c : PicPair} {trap : Bool} {n : Fin 16} (ready : c.Ready mask₁ mask₂)
    (inService : c.InService trap n) :
    (picSendEoi c (UInt8.ofNat (0x20 + n))).Ready mask₁ mask₂ ∧ (picSendEoi c (UInt8.ofNat (0x20 + n))).Idle ∧
      (picSendEoi c (UInt8.ofNat (0x20 + n))).pending = c.pending := by
  cases trap with
  | false => exact picSendEoi_idle ready inService
  | true =>
    rw [picSendEoi_trap inService]
    exact ⟨ready, inService, rfl⟩

/-- A request leaves what is in service. -/
theorem PhaseAgrees.raise {c : PicPair} {p : Phase UInt8} {q : Phase (Fin 16)} (agrees : PhaseAgrees c p q)
    (n : Fin 16) : PhaseAgrees (c.raise n) p q := by
  obtain ⟨_, idle, serves⟩ := @PicPair.raise_kept 0 0 c n
  have inService (trap : Bool) (m : Fin 16) : (c.raise n).InService trap m ↔ c.InService trap m := by
    cases trap with
    | false => exact serves m
    | true => exact idle
  cases p with
  | idle =>
    cases q with
    | idle => exact idle.mpr agrees
    | _ => exact agrees.elim
  | entered trap v =>
    cases q with
    | entered trap' m => exact agrees.imp_right (And.imp_right (inService trap m).mpr)
    | _ => exact agrees.elim
  | called trap v =>
    cases q with
    | called trap' m => exact agrees.imp_right (And.imp_right (inService trap m).mpr)
    | _ => exact agrees.elim
  | returned =>
    cases q with
    | returned => exact idle.mpr agrees
    | _ => exact agrees.elim

theorem IrqAgrees.raise {s : IrqMachine H} {a : IrqServer H} (agrees : IrqAgrees mask₁ mask₂ s a) (n : Fin 16) :
    IrqAgrees mask₁ mask₂ { s with pics := s.pics.raise n }
      { a with pending := if n ∈ lineOrder then Function.update a.pending n true else a.pending } := by
  refine ⟨(s.pics.raise_kept n).1.mpr agrees.ready, ?_, agrees.handlers, agrees.enabled, agrees.saved,
    agrees.phase.raise n, agrees.served, agrees.trapped⟩
  dsimp only
  split
  · rename_i member
    rw [agrees.pending]
    exact (funext (s.pics.raise_pending ((mem_lineOrder n).mp member))).symm
  · rename_i other
    rw [agrees.pending, not_not.mp ((mem_lineOrder n).not.mp other)]
    rfl

/-- The controllers offer the line that the server would serve next. -/
theorem IrqAgrees.accept {s : IrqMachine H} {a : IrqServer H} (agrees : IrqAgrees mask₁ mask₂ s a)
    (idle : s.pics.Idle) : Option.Rel (IrqAgrees mask₁ mask₂)
      (s.pics.acknowledge.map fun (pics, v) =>
        { s with pics, phase := .entered false v, saved := true, enabled := false })
      ((a.next lineOrder (openLines mask₁ mask₂)).map fun n =>
        { a with
          pending := Function.update a.pending n false, phase := .entered false n, saved := true, enabled := false }) := by
  have next : a.next lineOrder (openLines mask₁ mask₂) = lineOrder.find? (s.pics.wanted mask₁ mask₂) := by
    rw [Server.next, agrees.pending]
    rfl
  rw [PicPair.acknowledge_eq agrees.ready idle, next]
  cases lineOrder.find? (s.pics.wanted mask₁ mask₂) with
  | none => exact .none
  | some n =>
    refine .some ⟨PicPair.serve_ready agrees.ready n, ?_, agrees.handlers, rfl, rfl,
      ⟨rfl, rfl, PicPair.serve_serves agrees.ready idle n⟩, agrees.served, agrees.trapped⟩
    rw [agrees.pending]
    exact (funext (s.pics.serve_pending n)).symm

/-- An event can happen on both sides or on none, and leaves them in agreement. -/
theorem IrqAgrees.exec {s : IrqMachine H} {a : IrqServer H} (agrees : IrqAgrees mask₁ mask₂ s a) (e : IrqEvent H) :
    Option.Rel (IrqAgrees mask₁ mask₂) (s.exec e) (a.exec lineOrder (openLines mask₁ mask₂) e.view) := by
  obtain ⟨pics, handlers, enabled, saved, phase, served, trapped⟩ := s
  obtain ⟨pending, handlers', enabled', saved', phase', served', trapped'⟩ := a
  have both := agrees.phase
  obtain rfl : handlers' = handlers := agrees.handlers
  obtain rfl : enabled' = enabled := agrees.enabled
  obtain rfl : saved' = saved := agrees.saved
  obtain rfl : served' = served := agrees.served
  obtain rfl : trapped' = trapped := agrees.trapped
  cases e with
  | raise n => exact .some (agrees.raise n)
  | flag b =>
    cases phase <;> cases phase' <;> first | exact both.elim | skip
    · exact .some ⟨agrees.ready, agrees.pending, rfl, rfl, rfl, both, rfl, rfl⟩
    · exact .none
    · exact .none
    · exact .none
  | register irq h =>
    cases phase <;> cases phase' <;> first | exact both.elim | skip
    · refine .some ⟨agrees.ready, agrees.pending, ?_, rfl, rfl, both, rfl, rfl⟩
      dsimp only
      unfold registerIrqHandler
      by_cases inside : irq.toNat < 16
      · simp only [dif_pos inside]
      · simp only [dif_neg inside]
    · exact .none
    · exact .none
    · exact .none
  | accept =>
    cases phase <;> cases phase' <;> first | exact both.elim | skip
    · cases enabled' with
      | true => exact agrees.accept both
      | false => exact .none
    · exact .none
    · exact .none
    · exact .none
  | trap =>
    cases phase <;> cases phase' <;> first | exact both.elim | skip
    · exact .some ⟨agrees.ready, agrees.pending, rfl, rfl, rfl, ⟨rfl, rfl, both⟩, rfl, rfl⟩
    · exact .none
    · exact .none
    · exact .none
  | call =>
    cases phase <;> cases phase' <;> first | exact both.elim | skip
    · exact .none
    · rename_i trap v trap' n
      obtain ⟨rfl, rfl, inService⟩ := both
      simp only [IrqMachine.exec, irqHandler_line]
      cases trap with
      | false => exact .some ⟨agrees.ready, agrees.pending, rfl, rfl, rfl, ⟨rfl, rfl, inService⟩, rfl, rfl⟩
      | true => exact .some ⟨agrees.ready, agrees.pending, rfl, rfl, rfl, ⟨rfl, rfl, inService⟩, rfl, rfl⟩
    · exact .none
    · exact .none
  | finish =>
    cases phase <;> cases phase' <;> first | exact both.elim | skip
    · exact .none
    · exact .none
    · rename_i trap v trap' n
      obtain ⟨rfl, rfl, inService⟩ := both
      obtain ⟨ready, idle, kept⟩ := picSendEoi_done agrees.ready inService
      exact .some ⟨ready, agrees.pending.trans kept.symm, rfl, rfl, rfl, idle, rfl, rfl⟩
    · exact .none
  | resume switched =>
    cases phase <;> cases phase' <;> first | exact both.elim | skip
    · exact .none
    · exact .none
    · exact .none
    · exact .some ⟨agrees.ready, agrees.pending, rfl, rfl, rfl, both, rfl, rfl⟩

theorem IrqAgrees.run {s : IrqMachine H} {a : IrqServer H} (agrees : IrqAgrees mask₁ mask₂ s a)
    (events : List (IrqEvent H)) : Option.Rel (IrqAgrees mask₁ mask₂) (s.run events)
      (a.run lineOrder (openLines mask₁ mask₂) (events.map IrqEvent.view)) := by
  induction events generalizing s a with
  | nil => exact .some agrees
  | cons e events ih =>
    have step := agrees.exec e
    simp only [IrqMachine.run, Server.run, List.map_cons, List.foldlM_cons]
    cases here : s.exec e with
    | none =>
      cases there : a.exec lineOrder (openLines mask₁ mask₂) e.view with
      | none => exact .none
      | some a' =>
        rw [here, there] at step
        cases step
    | some s' =>
      cases there : a.exec lineOrder (openLines mask₁ mask₂) e.view with
      | none =>
        rw [here, there] at step
        cases step
      | some a' =>
        rw [here, there] at step
        cases step with
        | some agrees' => exact ih agrees'

/-- The machine once `init_idt` has set the controllers up, before its `sti`. -/
def IrqMachine.booted (c : PicPair) : IrqMachine H := ⟨initPic c, fun _ => none, false, false, .idle, [], []⟩

/-- A server without requests, handlers and calls. -/
def idleServer : IrqServer H := ⟨fun _ => false, fun _ => none, false, false, .idle, [], []⟩

/-- The lines that the masks of `init_pic` leave open. -/
def kernelLines : Fin 16 → Bool := openLines 0xEC 0xFF

theorem kernelLines_iff (n : Fin 16) : kernelLines n = true ↔ n = 0 ∨ n = 1 ∨ n = 4 := by
  revert n
  decide

theorem booted_agrees (c : PicPair) : IrqAgrees 0xEC 0xFF (IrqMachine.booted (H := H) c) idleServer := by
  obtain ⟨ready, idle, none⟩ := picSetup_ready 0xEC 0xFF c
  exact ⟨ready, (funext none).symm, rfl, rfl, rfl, idle, rfl, rfl⟩

/-- In any order of requests, registrations and interrupts, and whatever state the
controllers were in, the kernel with its controllers does what a server does that takes
its lines one at a time by their priority, and only the timer, the keyboard and the first
serial port. -/
theorem irq_runs_refine (c : PicPair) (events : List (IrqEvent H)) :
    Option.Rel (IrqAgrees 0xEC 0xFF) ((IrqMachine.booted c).run events)
      (idleServer.run lineOrder kernelLines (events.map IrqEvent.view)) ∧
    ∀ n, kernelLines n = true ↔ n = 0 ∨ n = 1 ∨ n = 4 :=
  ⟨(booted_agrees c).run events, kernelLines_iff⟩

/-- The steps of some interrupts, one after the other. -/
def interrupts (k : Nat) : List (IrqEvent H) := (List.range k).flatMap fun _ => [.accept, .call, .finish, .resume none]

/-- The kernel interrupts itself for line 0 alone. -/
theorem traps_view {n : Fin 16} (other : n ≠ 0) (events : List (IrqEvent H)) :
    Server.traps (events.map IrqEvent.view) n = 0 := by
  refine List.countP_eq_zero.mpr fun e member => ?_
  obtain ⟨event, _, rfl⟩ := List.mem_map.mp member
  cases event with
  | trap => simpa [IrqEvent.view] using Ne.symm other
  | _ => simp [IrqEvent.view]

theorem interrupts_view (wanted : List (Fin 16)) :
    (interrupts (H := H) wanted.length).map IrqEvent.view = wanted.flatMap fun _ => Server.interrupt := by
  have each {α β : Type} (xs : List α) (l : List β) : (xs.flatMap fun _ => l) = (List.replicate xs.length l).flatten := by
    rw [← List.map_const', List.flatMap_def]
  rw [interrupts, List.map_flatMap, each, each, List.length_range]
  rfl

/-- A run of the machine is one of the server. -/
theorem IrqMachine.run_agrees {c : PicPair} {events : List (IrqEvent H)} {s : IrqMachine H}
    (run : (IrqMachine.booted c).run events = some s) : ∃ a, IrqAgrees 0xEC 0xFF s a ∧
      idleServer.run lineOrder kernelLines (events.map IrqEvent.view) = some a := by
  have both := (booted_agrees c).run events
  rw [run] at both
  obtain ⟨a, there⟩ : ∃ a, idleServer.run lineOrder kernelLines (events.map IrqEvent.view) = some a := by
    cases there : idleServer.run lineOrder kernelLines (events.map IrqEvent.view) with
    | some a => exact ⟨a, rfl⟩
    | none =>
      unfold kernelLines at there
      rw [there] at both
      cases both
  have same := there
  unfold kernelLines at same
  rw [same] at both
  cases both with
  | some agrees => exact ⟨a, agrees, there⟩

/-- A run of the server is one of the machine. -/
theorem IrqMachine.run_of_server {c : PicPair} {events : List (IrqEvent H)} {a : IrqServer H}
    (there : idleServer.run lineOrder kernelLines (events.map IrqEvent.view) = some a) :
    ∃ s, (IrqMachine.booted c).run events = some s ∧ IrqAgrees 0xEC 0xFF s a := by
  have both := (booted_agrees c).run events
  unfold kernelLines at there
  rw [there] at both
  cases run : (IrqMachine.booted c).run events with
  | none =>
    rw [run] at both
    cases both
  | some s =>
    rw [run] at both
    cases both with
    | some agrees => exact ⟨s, rfl, agrees⟩

theorem PhaseAgrees.entered {c : PicPair} {p : Phase UInt8} {trap : Bool} {n : Fin 16}
    (agrees : PhaseAgrees c p (.entered trap n)) : p = .entered trap (UInt8.ofNat (0x20 + n)) := by
  cases p with
  | entered trap' v => rw [agrees.1, agrees.2.1]
  | _ => exact agrees.elim

/-- Where the lines `wanted` have requests, and may be served, so many interrupts serve them in
this order. -/
theorem IrqAgrees.drains {s : IrqMachine H} {a : IrqServer H} (agrees : IrqAgrees 0xEC 0xFF s a)
    (idle : s.phase = .idle) (enabled : s.enabled = true) {wanted : List (Fin 16)}
    (all : lineOrder.filter (fun n => s.pics.pending n && kernelLines n) = wanted) :
    ∃ t, s.run (interrupts wanted.length) = some t ∧ t.phase = .idle ∧ t.enabled = true ∧
      t.served = s.served ++ wanted.map (fun n => (n, s.handlers n)) ∧
      ∀ n, t.pics.pending n = (s.pics.pending n && decide (n ∉ wanted)) := by
  have quiet : a.phase = .idle := by
    have both := agrees.phase
    rw [idle] at both
    cases phase : a.phase with
    | idle => rfl
    | _ => rw [phase] at both; exact both.elim
  have asking : lineOrder.filter (fun n => a.pending n && kernelLines n) = wanted := by rw [agrees.pending]; exact all
  obtain ⟨saved, drained⟩ := Server.drain (by decide) wanted quiet (agrees.enabled.trans enabled) asking
  have both := agrees.run (interrupts wanted.length)
  rw [interrupts_view, ← kernelLines, drained] at both
  cases run : s.run (interrupts wanted.length) with
  | none =>
    rw [run] at both
    cases both
  | some t =>
    rw [run] at both
    cases both with
    | some after =>
      refine ⟨t, rfl, ?_, ?_, ?_, fun n => ?_⟩
      · have phase := after.phase
        rw [quiet] at phase
        cases now : t.phase with
        | idle => rfl
        | _ => rw [now] at phase; exact phase.elim
      · exact after.enabled.symm.trans (agrees.enabled.trans enabled)
      · rw [← after.served, ← agrees.served, ← agrees.handlers]
      · rw [← congrFun after.pending n, ← congrFun agrees.pending n]

/-- In every run only the three open lines are served, each time for a request of their own, and
the other calls are those of the timer's handler by `int $0x20`; a request on one of the lines is
kept until its handler is called for it; and once nothing else happens, all of them are served by
their priority. -/
theorem irq_requests_answered {c : PicPair} {events : List (IrqEvent H)} {s : IrqMachine H}
    (run : (IrqMachine.booted c).run events = some s) :
    (∀ call ∈ s.served, call.1 = 0 ∨ call.1 = 1 ∨ call.1 = 4) ∧
    (∀ n, s.served.countP (fun call => call.1 = n) ≤ Server.requests (events.map IrqEvent.view) n) ∧
    (∀ n, s.trapped.countP (fun call => call.1 = n) ≤ Server.traps (events.map IrqEvent.view) n) ∧
    (∀ call ∈ s.trapped, call.1 = 0) ∧
    (∀ before n after, events = before ++ .raise n :: after → n ≠ 2 → ∃ t, (IrqMachine.booted c).run before = some t ∧
      (s.pics.pending n = true ∨ s.phase = .entered false (UInt8.ofNat (0x20 + n)) ∨
        ∃ h, (n, h) ∈ s.served.drop t.served.length)) ∧
    (s.phase = .idle → s.enabled = true → ∃ t, s.run
        (interrupts (lineOrder.filter fun n => s.pics.pending n && kernelLines n).length) = some t ∧
      t.phase = .idle ∧ (∀ n, kernelLines n = true → t.pics.pending n = false) ∧
      t.served = s.served ++ (lineOrder.filter fun n => s.pics.pending n && kernelLines n).map
        fun n => (n, s.handlers n)) := by
  obtain ⟨a, agrees, there⟩ := IrqMachine.run_agrees run
  have fresh : Server.Fair lineOrder kernelLines (fun _ => 0) (fun _ => 0) (idleServer : IrqServer H) :=
    ⟨fun n same => (by cases same), by simp [idleServer], fun n => by simp [idleServer], fun n => by simp [idleServer]⟩
  have fair := fresh.run there
  have trapped (n : Fin 16) : s.trapped.countP (fun call => call.1 = n) ≤
      Server.traps (events.map IrqEvent.view) n := by
    have traps := fair.traps n
    rw [agrees.trapped] at traps
    omega
  refine ⟨fun call member => ?_, fun n => ?_, trapped, fun call member => ?_,
    fun before n after split device => ?_, fun idle enabled => ?_⟩
  · exact (kernelLines_iff _).mp (fair.served call (by rwa [agrees.served])).2
  · have answers := fair.answers n
    rw [agrees.served] at answers
    omega
  · by_contra other
    have counted : 0 < s.trapped.countP fun c => c.1 = call.1 :=
      List.countP_pos_iff.mpr ⟨call, member, decide_eq_true rfl⟩
    have made := trapped call.1
    rw [traps_view other] at made
    omega
  · subst split
    rw [List.map_append, List.map_cons] at there
    obtain ⟨b, first, owed⟩ := Server.request_kept ((mem_lineOrder n).mpr device) there
    obtain ⟨t, earlier, before⟩ := IrqMachine.run_of_server (c := c) first
    refine ⟨t, earlier, ?_⟩
    rw [← agrees.pending, ← agrees.served, ← before.served]
    refine owed.imp_right (Or.imp_left fun entered => ?_)
    have phase := agrees.phase
    rw [entered] at phase
    exact phase.entered
  · obtain ⟨t, drained, phase, _, served, pending⟩ := agrees.drains idle enabled rfl
    refine ⟨t, drained, phase, fun n isOpen => ?_, served⟩
    rw [pending]
    have device : n ≠ 2 := by
      rintro rfl
      exact absurd ((kernelLines_iff 2).mp isOpen) (by decide)
    cases requested : s.pics.pending n with
    | false => rfl
    | true => simp [mem_lineOrder, device, requested, isOpen]

/-- Controllers as they may be when the machine starts. -/
def resetPics : PicPair :=
  let pic : Pic := ⟨0, true, false, 0, false, fun _ => true, fun _ => false, fun _ => false⟩
  ⟨pic, pic⟩

/-- The mouse raises its line before the keyboard and the serial port do, all three while the
kernel yields to the timer's handler, and only these two are served. -/
theorem irq_requests_answered_keyboard :
    ∃ s t : IrqMachine Nat, (IrqMachine.booted resetPics).run
        [.register 1 7, .register 12 8, .flag true, .trap, .raise 12, .raise 4, .call, .raise 1, .finish,
          .resume none] = some s ∧
      s.trapped = [(0, none)] ∧ s.run (interrupts 2) = some t ∧ t.served = [(1, some 7), (4, none)] := by
  obtain ⟨s, run⟩ : ∃ s, (IrqMachine.booted (H := Nat) resetPics).run
      [.register 1 7, .register 12 8, .flag true, .trap, .raise 12, .raise 4, .call, .raise 1, .finish,
          .resume none] = some s := ⟨_, rfl⟩
  obtain ⟨_, _, _, _, _, drains⟩ := irq_requests_answered run
  cases Option.some.inj run
  obtain ⟨t, drained, _, _, served⟩ := drains rfl rfl
  exact ⟨_, t, run, rfl, drained, served⟩

end LearningOS
