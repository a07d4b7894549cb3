import LearningOS.Store.Copy

namespace X86
open ByteStore

/-- The registers of a 32-bit processor with flat segments, and its memory. -/
structure Cpu where
  eax : UInt32
  ecx : UInt32
  edx : UInt32
  ebx : UInt32
  esp : UInt32
  ebp : UInt32
  esi : UInt32
  edi : UInt32
  eip : UInt32
  eflags : UInt32
  cs : UInt16
  ds : UInt16
  es : UInt16
  fs : UInt16
  gs : UInt16
  ss : UInt16
  mem : Bytes

/-- The stack for ring 0 in a task state segment. -/
structure TaskSegment where
  ss0 : UInt16
  esp0 : UInt32

/-- The ring a selector asks for; that of `cs` is the ring the processor is in. -/
def rpl (sel : UInt16) : Nat := sel.toNat % 4

namespace Cpu

/-- The words of the stack, from its top on. -/
def word (c : Cpu) (i : Nat) : UInt32 := UInt32.ofNat (load32 c.mem (u32 (c.esp.toNat + 4 * i)))

def push (c : Cpu) (w : UInt32) : Cpu :=
  { c with esp := c.esp - 4, mem := store32 c.mem (c.esp - 4).toNat w.toNat }

def pushAll (c : Cpu) (ws : List UInt32) : Cpu := ws.foldl push c

/-- `RF` and `VM` are pushed as 0. -/
def pushfd (c : Cpu) : Cpu := c.push (c.eflags &&& 0x00FCFFFF)

def popEax (c : Cpu) : Cpu := { c with eax := c.word 0, esp := c.esp + 4 }

/-- The stack pointer that is pushed is the one before. -/
def pusha (c : Cpu) : Cpu := c.pushAll [c.eax, c.ecx, c.edx, c.ebx, c.esp, c.ebp, c.esi, c.edi]

/-- The stack pointer among the words is skipped. -/
def popa (c : Cpu) : Cpu :=
  { c with
    edi := c.word 0, esi := c.word 1, ebp := c.word 2, ebx := c.word 4, edx := c.word 5, ecx := c.word 6
    eax := c.word 7, esp := c.esp + 32 }

/-- `mov ax, v` keeps the upper half of `eax`. -/
def movAx (c : Cpu) (v : UInt16) : Cpu := { c with eax := c.eax &&& 0xFFFF0000 ||| v.toUInt32 }

def cli (c : Cpu) : Cpu := { c with eflags := c.eflags &&& ~~~0x200 }

def sti (c : Cpu) : Cpu := { c with eflags := c.eflags ||| 0x200 }

/-- An interrupt through a gate: from an outer ring the stack of the task state segment
is taken, and some exceptions push an error code. `IF`, `TF`, `NT`, `RF` and `VM` are
cleared. -/
def interrupt (c : Cpu) (tss : TaskSegment) (sel : UInt16) (handler : UInt32) (error : Option UInt32) : Cpu :=
  let stacked :=
    if rpl c.cs ≤ rpl sel then c else { c with ss := tss.ss0, esp := tss.esp0 }.pushAll [c.ss.toUInt32, c.esp]
  { stacked.pushAll ([c.eflags, c.cs.toUInt32, c.eip] ++ error.toList) with
    cs := sel, eip := handler, eflags := c.eflags &&& ~~~0x34300 }

/-- A return from an interrupt, with the privilege levels of the segments: to an outer
ring it takes the stack pointer from the stack too, and drops the data segments that
the ring may not use. -/
def iret (dpl : UInt16 → Nat) (c : Cpu) : Cpu :=
  let cs := (c.word 1).toUInt16
  let keep (sel : UInt16) := if dpl sel < rpl cs then 0 else sel
  if rpl cs ≤ rpl c.cs then { c with eip := c.word 0, cs, eflags := c.word 2, esp := c.esp + 12 }
  else
    { c with
      eip := c.word 0, cs, eflags := c.word 2, esp := c.word 3, ss := (c.word 4).toUInt16
      ds := keep c.ds, es := keep c.es, fs := keep c.fs, gs := keep c.gs }

theorem esp_push (c : Cpu) (w : UInt32) : (c.push w).esp.toNat = sub32 c.esp.toNat 4 := by
  change (c.esp - 4).toNat = _
  rw [UInt32.toNat_sub, Nat.add_comm]
  rfl

/-- A push is one of the memory. -/
theorem push_eq (c : Cpu) (w : UInt32) :
    ((c.push w).mem, (c.push w).esp.toNat) = ByteStore.push (c.mem, c.esp.toNat) w.toNat := by
  rw [ByteStore.push, ← c.esp_push w]
  rfl

theorem pushAll_eq (c : Cpu) (ws : List UInt32) :
    ((c.pushAll ws).mem, (c.pushAll ws).esp.toNat) =
      (ws.map UInt32.toNat).foldl ByteStore.push (c.mem, c.esp.toNat) := by
  induction ws generalizing c with
  | nil => rfl
  | cons w ws ih =>
    rw [List.map_cons, List.foldl_cons, ← c.push_eq w]
    exact ih (c.push w)

@[simp] theorem pushAll_nil (c : Cpu) : c.pushAll [] = c := rfl

theorem pushAll_cons (c : Cpu) (w : UInt32) (ws : List UInt32) : c.pushAll (w :: ws) = (c.push w).pushAll ws := rfl

theorem pushAll_append (c : Cpu) (ws vs : List UInt32) : c.pushAll (ws ++ vs) = (c.pushAll ws).pushAll vs :=
  List.foldl_append

/-- Pushes change the stack pointer and the memory only. -/
theorem pushAll_with (c : Cpu) (ws : List UInt32) :
    c.pushAll ws = { c with esp := (c.pushAll ws).esp, mem := (c.pushAll ws).mem } := by
  induction ws generalizing c with
  | nil => rfl
  | cons w ws ih => exact ih (c.push w)

theorem pushAll_esp (c : Cpu) (ws : List UInt32) : (c.pushAll ws).esp + UInt32.ofNat (4 * ws.length) = c.esp := by
  induction ws generalizing c with
  | nil => exact UInt32.add_zero c.esp
  | cons w ws ih =>
    have rest := ih (c.push w)
    have four : c.esp - 4 + 4 = c.esp := UInt32.sub_add_cancel c.esp 4
    rw [pushAll_cons, List.length_cons, Nat.mul_succ, UInt32.ofNat_add, ← UInt32.add_assoc, rest]
    exact four

/-- The same memory and the same place in it. -/
structure SameStack (c d : Cpu) : Prop where
  mem : c.mem = d.mem
  esp : c.esp = d.esp

namespace SameStack
variable {c d e : Cpu}

theorem trans (same : SameStack c d) (again : SameStack d e) : SameStack c e :=
  ⟨same.mem.trans again.mem, same.esp.trans again.esp⟩

theorem push (same : SameStack c d) (w : UInt32) : SameStack (c.push w) (d.push w) := by
  obtain ⟨mem, esp⟩ := same
  refine ⟨?_, ?_⟩
  · simp only [Cpu.push, mem, esp]
  · simp only [Cpu.push, esp]

theorem pushAll (same : SameStack c d) (ws : List UInt32) : SameStack (c.pushAll ws) (d.pushAll ws) := by
  induction ws generalizing c d with
  | nil => exact same
  | cons w ws ih => exact ih (same.push w)

/-- A word that was pushed, popped and pushed over. -/
theorem overwrite {v : UInt32} (mem : d.mem = (c.push v).mem) (esp : d.esp = c.esp) (w : UInt32) :
    SameStack (d.push w) (c.push w) := by
  refine ⟨?_, ?_⟩
  · simp only [Cpu.push, mem, esp, store32_store32]
  · simp only [Cpu.push, esp]

theorem word (same : SameStack c d) (i : Nat) : c.word i = d.word i := by
  rw [Cpu.word, Cpu.word, same.mem, same.esp]

end SameStack

theorem toNat_word (c : Cpu) (i : Nat) : (c.word i).toNat = load32 c.mem (u32 (c.esp.toNat + 4 * i)) := by
  rw [word, UInt32.toNat_ofNat']
  exact Nat.mod_eq_of_lt (load32_lt _ _)

theorem word_push_zero (c : Cpu) (w : UInt32) : (c.push w).word 0 = w := by
  have inside : u32 ((c.push w).esp.toNat + 4 * 0) = (c.esp - 4).toNat := u32_of_lt (c.esp - 4).toNat_lt
  rw [word, inside]
  change UInt32.ofNat (load32 (store32 c.mem (c.esp - 4).toNat w.toNat) (c.esp - 4).toNat) = w
  rw [load32_store32_same, Nat.mod_eq_of_lt w.toNat_lt, UInt32.ofNat_toNat]

/-- `pushfd` and `pop eax` read the flags. -/
theorem pushfd_popEax (c : Cpu) : c.pushfd.popEax =
    { c with eax := c.eflags &&& 0x00FCFFFF, mem := c.pushfd.mem } := by
  have esp : c.esp - 4 + 4 = c.esp := UInt32.sub_add_cancel c.esp 4
  simp only [pushfd, popEax, word_push_zero]
  simp only [push, esp]

/-- A push moves the other words on; the stack may go round the end of memory. -/
theorem word_push_succ (c : Cpu) (w : UInt32) {i : Nat} (room : i + 1 < 2 ^ 30) :
    (c.push w).word (i + 1) = c.word i := by
  have bound := c.esp.toNat_lt
  have down : (c.esp - 4).toNat = sub32 c.esp.toNat 4 := c.esp_push w
  have place : u32 ((c.push w).esp.toNat + 4 * (i + 1)) = u32 (c.esp.toNat + 4 * i) := by
    rw [c.esp_push w]
    unfold sub32 u32
    omega
  rw [word, word, place]
  change UInt32.ofNat (load32 (store32 c.mem (c.esp - 4).toNat w.toNat) _) = _
  rw [down, load32_store32_other]
  unfold sub32 u32
  omega

/-- The first words of the stack. -/
def stack (c : Cpu) (n : Nat) : List UInt32 := (List.range n).map c.word

theorem word_of_stack {c : Cpu} {n i : Nat} {ws : List UInt32} (stack : c.stack n = ws) (less : i < n) :
    ws[i]? = some (c.word i) := by
  rw [← stack, Cpu.stack, List.getElem?_map, List.getElem?_range less]
  rfl

theorem stack_push (c : Cpu) (w : UInt32) {n : Nat} (room : n < 2 ^ 30) :
    (c.push w).stack (n + 1) = w :: c.stack n := by
  rw [stack, List.range_succ_eq_map, List.map_cons, List.map_map, c.word_push_zero w]
  refine congrArg (List.cons w) (List.map_congr_left fun i member => ?_)
  exact c.word_push_succ w (by have less := List.mem_range.mp member; omega)

/-- What was pushed last is on top. -/
theorem stack_pushAll (c : Cpu) (ws : List UInt32) {n : Nat} (room : ws.length + n ≤ 2 ^ 30) :
    (c.pushAll ws).stack (ws.length + n) = ws.reverse ++ c.stack n := by
  induction ws generalizing c n with
  | nil => rw [List.length_nil, Nat.zero_add, pushAll_nil, List.reverse_nil, List.nil_append]
  | cons w ws ih =>
    rw [List.length_cons] at room
    have rest := ih (c.push w) (n := n + 1) (by omega)
    rw [stack_push c w (by omega), ← Nat.add_assoc, Nat.add_right_comm] at rest
    rw [pushAll_cons, List.length_cons, rest, List.reverse_cons, List.append_assoc]
    rfl

theorem word_pushAll (c : Cpu) (ws : List UInt32) {i : Nat} {w : UInt32} (room : ws.length ≤ 2 ^ 30)
    (atI : ws.reverse[i]? = some w) : (c.pushAll ws).word i = w := by
  have less : i < ws.length := by
    rw [← List.length_reverse]
    exact (List.getElem?_eq_some_iff.mp atI).1
  have pushed := word_of_stack (c.stack_pushAll ws (n := 0) room) less
  rw [List.getElem?_append_left (by rw [List.length_reverse]; exact less), atI] at pushed
  exact (Option.some.inj pushed).symm

/-- The words that are left when some are popped. -/
theorem word_skip {c d : Cpu} (k : Nat) (mem : d.mem = c.mem) (esp : d.esp = c.esp + UInt32.ofNat (4 * k)) (i : Nat) :
    d.word i = c.word (k + i) := by
  have place : u32 (d.esp.toNat + 4 * i) = u32 (c.esp.toNat + 4 * (k + i)) := by
    rw [esp, UInt32.toNat_add, UInt32.toNat_ofNat']
    unfold u32
    omega
  rw [word, word, mem, place]

/-- A return inside a ring. -/
theorem iret_same {dpl : UInt16 → Nat} {c : Cpu} (inside : rpl (c.word 1).toUInt16 ≤ rpl c.cs) :
    c.iret dpl = { c with
      eip := c.word 0, cs := (c.word 1).toUInt16, eflags := c.word 2, esp := c.esp + 12 } := if_pos inside

/-- A return to an outer ring goes on on the stack of that ring. -/
theorem iret_outer_stack (dpl : UInt16 → Nat) {c : Cpu} (outer : rpl c.cs < rpl (c.word 1).toUInt16) :
    (c.iret dpl).mem = c.mem ∧ (c.iret dpl).esp = c.word 3 ∧ (c.iret dpl).cs = (c.word 1).toUInt16 := by
  rw [iret, if_neg (Nat.not_le.mpr outer)]
  exact ⟨rfl, rfl, rfl⟩

/-- A return to an outer ring that may use all segments. -/
theorem iret_outer {dpl : UInt16 → Nat} {c : Cpu} (outer : rpl c.cs < rpl (c.word 1).toUInt16)
    (allowed : ∀ sel ∈ [c.ds, c.es, c.fs, c.gs], rpl (c.word 1).toUInt16 ≤ dpl sel) :
    c.iret dpl = { c with
      eip := c.word 0, cs := (c.word 1).toUInt16, eflags := c.word 2, esp := c.word 3
      ss := (c.word 4).toUInt16 } := by
  simp only [List.mem_cons, List.not_mem_nil, or_false, forall_eq_or_imp, forall_eq, ← Nat.not_lt] at allowed
  simp only [iret, if_neg (Nat.not_le.mpr outer), allowed, if_false]

end Cpu

/-- Flags that were set are set. -/
theorem or_and_self (x y : UInt32) : (x ||| y) &&& y = y := by
  apply UInt32.toBitVec_inj.mp
  ext i less
  rw [UInt32.toBitVec_and, UInt32.toBitVec_or, BitVec.getElem_and, BitVec.getElem_or]
  cases y.toBitVec[i] <;> simp

/-- What `mov ax, v` makes of a register: `v` takes the place of the low half. -/
theorem movAx_toNat (r : UInt32) (v : UInt16) :
    (r &&& 0xFFFF0000 ||| v.toUInt32).toNat = r.toNat - r.toNat % 2 ^ 16 + v.toNat := by
  have bound := r.toNat_lt
  have half := v.toNat_lt
  have whole : (r &&& 0xFFFF0000 ||| v.toUInt32).toNat = r.toNat &&& 0xFFFF0000 ||| v.toNat := by
    rw [UInt32.toNat_or, UInt32.toNat_and, UInt16.toNat_toUInt32]
    rfl
  have high : (r.toNat &&& 0xFFFF0000 ||| v.toNat) / 2 ^ 16 = r.toNat / 2 ^ 16 := by
    rw [Nat.or_div_two_pow, Nat.and_div_two_pow, Nat.div_eq_of_lt half, Nat.or_zero]
    exact (Nat.and_two_pow_sub_one_eq_mod _ 16).trans (Nat.mod_eq_of_lt (by omega))
  have low : (r.toNat &&& 0xFFFF0000 ||| v.toNat) % 2 ^ 16 = v.toNat := by
    rw [Nat.or_mod_two_pow, Nat.and_mod_two_pow, Nat.mod_eq_of_lt half]
    exact congrArg (· ||| v.toNat) (Nat.and_zero _) |>.trans (Nat.zero_or _)
  rw [whole]
  omega

/-- The low half of a register that was moved to. -/
theorem movAx_low (r : UInt32) (v : UInt16) : (r &&& 0xFFFF0000 ||| v.toUInt32).toUInt16 = v := by
  have half := v.toNat_lt
  apply UInt16.toNat_inj.mp
  rw [UInt32.toNat_toUInt16, movAx_toNat]
  omega

/-- A register keeps its value exactly if its own low half is moved to it. -/
theorem movAx_eq_iff (r : UInt32) (v : UInt16) : r &&& 0xFFFF0000 ||| v.toUInt32 = r ↔ r.toNat % 2 ^ 16 = v.toNat := by
  have half := v.toNat_lt
  have least := Nat.mod_le r.toNat (2 ^ 16)
  rw [← UInt32.toNat_inj, movAx_toNat]
  omega

end X86
