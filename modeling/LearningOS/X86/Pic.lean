import Mathlib.Data.Fin.Basic
import Mathlib.Data.Fintype.Basic
import Mathlib.Data.List.Find
import Mathlib.Data.List.FinRange
import Mathlib.Logic.Function.Basic

namespace X86

/-- The bits of a byte. -/
def bits (v : UInt8) : Fin 8 → Bool := fun i => v.toNat.testBit i

/-- The first of eight lines with a property. -/
def firstLine (p : Fin 8 → Bool) : Option (Fin 8) := (List.finRange 8).find? p

/-- An 8259A interrupt controller with edge-triggered lines. `expect` is the number of the
initialization word it waits for, or 0. -/
structure Pic where
  expect : Nat
  single : Bool
  icw4 : Bool
  base : UInt8
  autoEoi : Bool
  irr : Fin 8 → Bool
  isr : Fin 8 → Bool
  imr : Fin 8 → Bool

namespace Pic

/-- The end of the interrupt with the highest priority. -/
def endOfInterrupt (p : Pic) : Pic :=
  match firstLine p.isr with
  | none => p
  | some i => { p with isr := Function.update p.isr i false }

/-- A byte for the lower port: the first initialization word, or an operation word, of
which only the non-specific end of interrupt has an effect here. -/
def writeCommand (p : Pic) (v : UInt8) : Pic :=
  if v.toNat.testBit 4 then
    { p with
      expect := 2, single := v.toNat.testBit 1, icw4 := v.toNat.testBit 0, autoEoi := false
      irr := fun _ => false, isr := fun _ => false, imr := fun _ => false }
  else if v.toNat / 8 = 4 then p.endOfInterrupt
  else p

/-- A byte for the upper port: the next initialization word, or the mask. -/
def writeData (p : Pic) (v : UInt8) : Pic :=
  let last := if p.icw4 then 4 else 0
  if p.expect = 2 then { p with base := v &&& 0xF8, expect := if p.single then last else 3 }
  else if p.expect = 3 then { p with expect := last }
  else if p.expect = 4 then { p with autoEoi := v.toNat.testBit 1, expect := 0 }
  else { p with imr := bits v }

def raise (p : Pic) (i : Fin 8) : Pic := { p with irr := Function.update p.irr i true }

/-- The line that is to interrupt the processor: the first open one with a request, if
none of its own or of a higher priority is in service. -/
def request (p : Pic) (lines : Fin 8 → Bool) : Option (Fin 8) :=
  firstLine fun i => lines i && !p.imr i && decide (∀ j ≤ i, p.isr j = false)

/-- The acknowledgement of an interrupt. -/
def take (p : Pic) (i : Fin 8) : Pic :=
  { p with
    irr := Function.update p.irr i false, isr := if p.autoEoi then p.isr else Function.update p.isr i true }

end Pic

/-- Two controllers, the second one on line 2 of the first. -/
structure PicPair where
  master : Pic
  slave : Pic

/-- The lines of a pair by priority. -/
def lineOrder : List (Fin 16) := [0, 1, 8, 9, 10, 11, 12, 13, 14, 15, 3, 4, 5, 6, 7]

theorem mem_lineOrder (n : Fin 16) : n ∈ lineOrder ↔ n ≠ 2 := by
  revert n
  decide

/-- What two masks let through; the second controller needs line 2 of the first. -/
def openLines (mask₁ mask₂ : UInt8) (n : Fin 16) : Bool :=
  if n.val < 8 then !mask₁.toNat.testBit n else !mask₁.toNat.testBit 2 && !mask₂.toNat.testBit (n.val - 8)

namespace PicPair

def outb (c : PicPair) (port : Nat) (v : UInt8) : PicPair :=
  if port = 0x20 then { c with master := c.master.writeCommand v }
  else if port = 0x21 then { c with master := c.master.writeData v }
  else if port = 0xA0 then { c with slave := c.slave.writeCommand v }
  else if port = 0xA1 then { c with slave := c.slave.writeData v }
  else c

/-- A line on the controller it belongs to. -/
def low (n : Fin 16) : Fin 8 := Fin.ofNat 8 n

/-- An edge on a line. No device is on line 2, which is that of the second controller. -/
def raise (c : PicPair) (n : Fin 16) : PicPair :=
  if n = 2 then c
  else if n.val < 8 then { c with master := c.master.raise (low n) } else { c with slave := c.slave.raise (low n) }

/-- The requests that the first controller sees. -/
def lines (c : PicPair) : Fin 8 → Bool := fun i =>
  if i = 2 then (c.slave.request c.slave.irr).isSome else c.master.irr i

/-- The processor takes an interrupt, if one is requested, and learns its number. -/
def acknowledge (c : PicPair) : Option (PicPair × UInt8) :=
  match c.master.request c.lines with
  | none => none
  | some i =>
    if i = 2 then
      (c.slave.request c.slave.irr).map fun j => (⟨c.master.take 2, c.slave.take j⟩, c.slave.base + UInt8.ofNat j)
    else some (⟨c.master.take i, c.slave⟩, c.master.base + UInt8.ofNat i)

/-- A line has a request of its device. -/
def pending (c : PicPair) (n : Fin 16) : Bool :=
  if n = 2 then false else if n.val < 8 then c.master.irr (low n) else c.slave.irr (low n)

/-- A pair that has been initialized, with two masks. -/
structure Ready (c : PicPair) (mask₁ mask₂ : UInt8) : Prop where
  expect : c.master.expect = 0 ∧ c.slave.expect = 0
  autoEoi : c.master.autoEoi = false ∧ c.slave.autoEoi = false
  base : c.master.base = 0x20 ∧ c.slave.base = 0x28
  masks : c.master.imr = bits mask₁ ∧ c.slave.imr = bits mask₂

/-- No interrupt is in service. -/
def Idle (c : PicPair) : Prop := (∀ i, c.master.isr i = false) ∧ ∀ i, c.slave.isr i = false

/-- The interrupt of one line is in service. -/
def Serves (c : PicPair) (n : Fin 16) : Prop :=
  if n.val < 8 then (∀ i, c.master.isr i = decide (i = low n)) ∧ ∀ i, c.slave.isr i = false
  else (∀ i, c.master.isr i = decide (i = 2)) ∧ ∀ i, c.slave.isr i = decide (i = low n)

/-- What is in service while the handler of a line runs: nothing, if a program has called it. -/
def InService (c : PicPair) (trap : Bool) (n : Fin 16) : Prop := if trap then c.Idle else c.Serves n

/-- The pair once the interrupt of a line has been taken. -/
def serve (c : PicPair) (n : Fin 16) : PicPair :=
  if n.val < 8 then ⟨c.master.take (low n), c.slave⟩ else ⟨c.master.take 2, c.slave.take (low n)⟩

end PicPair

/-- Without an interrupt in service, the first open line with a request is next. -/
theorem Pic.request_idle {p : Pic} (idle : ∀ i, p.isr i = false) (lines : Fin 8 → Bool) :
    p.request lines = firstLine fun i => lines i && !p.imr i := by
  simp [Pic.request, idle]

/-- The lines of the two controllers among the sixteen. -/
def lower (i : Fin 8) : Fin 16 := Fin.ofNat 16 i

def upper (i : Fin 8) : Fin 16 := Fin.ofNat 16 (i + 8)

theorem lineOrder_eq : lineOrder =
    ([0, 1] : List (Fin 8)).map lower ++ ((List.finRange 8).map upper ++ ([3, 4, 5, 6, 7] : List (Fin 8)).map lower) := by
  decide

theorem firstLine_eq (p : Fin 8 → Bool) :
    firstLine p = (([0, 1] : List (Fin 8)).find? p).or
      ((if p 2 then some 2 else none).or (([3, 4, 5, 6, 7] : List (Fin 8)).find? p)) := by
  have split : List.finRange 8 = [0, 1] ++ ([2] ++ [3, 4, 5, 6, 7]) := by decide
  have two : ([2] : List (Fin 8)).find? p = if p 2 then some 2 else none := by
    rw [List.find?_cons]
    cases p 2 <;> rfl
  rw [firstLine, split, List.find?_append, List.find?_append, two]

/-- What a line number is on its controller. -/
theorem lower_low (i : Fin 8) :
    (lower i).val < 8 ∧ PicPair.low (lower i) = i ∧ (lower i).val = i.val ∧ (lower i = 2 ↔ i = 2) := by
  revert i
  decide

theorem upper_low (i : Fin 8) :
    ¬ (upper i).val < 8 ∧ PicPair.low (upper i) = i ∧ (upper i).val = i.val + 8 ∧ upper i ≠ 2 := by
  revert i
  decide

namespace PicPair
variable {c : PicPair} {mask₁ mask₂ : UInt8}

/-- A line that is open and has a request. -/
def wanted (c : PicPair) (mask₁ mask₂ : UInt8) (n : Fin 16) : Bool := c.pending n && openLines mask₁ mask₂ n

theorem wanted_lower (c : PicPair) (mask₁ mask₂ : UInt8) {i : Fin 8} (other : i ≠ 2) :
    c.wanted mask₁ mask₂ (lower i) = (c.master.irr i && !bits mask₁ i) := by
  obtain ⟨less, same, value, two⟩ := lower_low i
  rw [wanted, pending, openLines, if_neg (two.not.mpr other), if_pos less, if_pos less, same, value]
  rfl

theorem wanted_upper (c : PicPair) (mask₁ mask₂ : UInt8) (j : Fin 8) :
    c.wanted mask₁ mask₂ (upper j) = (c.slave.irr j && (!bits mask₁ 2 && !bits mask₂ j)) := by
  obtain ⟨more, same, value, other⟩ := upper_low j
  rw [wanted, pending, openLines, if_neg other, if_neg more, if_neg more, same, value, Nat.add_sub_cancel]
  rfl

/-- The interrupt of a line of the first controller. -/
theorem taken_lower (ready : c.Ready mask₁ mask₂) (i : Fin 8) :
    ((⟨c.master.take i, c.slave⟩, c.master.base + UInt8.ofNat i) : PicPair × UInt8) =
      (c.serve (lower i), UInt8.ofNat (0x20 + lower i)) := by
  obtain ⟨less, same, value, _⟩ := lower_low i
  rw [serve, if_pos less, same, value, ready.base.1, UInt8.ofNat_add]
  rfl

/-- The interrupt of a line of the second one. -/
theorem taken_upper (ready : c.Ready mask₁ mask₂) (j : Fin 8) :
    ((⟨c.master.take 2, c.slave.take j⟩, c.slave.base + UInt8.ofNat j) : PicPair × UInt8) =
      (c.serve (upper j), UInt8.ofNat (0x20 + upper j)) := by
  obtain ⟨more, same, value, _⟩ := upper_low j
  rw [serve, if_neg more, same, value, ready.base.2, Nat.add_comm j.val, ← Nat.add_assoc, UInt8.ofNat_add]
  rfl

/-- An idle pair interrupts the processor for the first of all open lines that have a
request, and with the number of this line. -/
theorem acknowledge_eq (ready : c.Ready mask₁ mask₂) (idle : c.Idle) :
    c.acknowledge = (lineOrder.find? (c.wanted mask₁ mask₂)).map fun n => (c.serve n, UInt8.ofNat (0x20 + n)) := by
  have own : c.slave.request c.slave.irr = firstLine fun j => c.slave.irr j && !bits mask₂ j := by
    rw [Pic.request_idle idle.2, ready.masks.2]
  have first : c.master.request c.lines = firstLine fun i => c.lines i && !bits mask₁ i := by
    rw [Pic.request_idle idle.1, ready.masks.1]
  -- on a line of its own, the first controller sees the request of the line itself
  have direct {i : Fin 8} (other : i ≠ 2) : (c.lines i && !bits mask₁ i) = c.wanted mask₁ mask₂ (lower i) := by
    rw [wanted_lower c mask₁ mask₂ other, lines, if_neg other]
  have cascade : (c.lines 2 && !bits mask₁ 2) =
      ((firstLine fun j => c.slave.irr j && !bits mask₂ j).isSome && !bits mask₁ 2) := by
    rw [lines, if_pos rfl, own]
  have front (l : List (Fin 8)) (others : ∀ i ∈ l, i ≠ 2) :
      (l.map lower).find? (c.wanted mask₁ mask₂) =
        (l.find? fun i => c.lines i && !bits mask₁ i).map lower := by
    rw [List.find?_map]
    exact congrArg (Option.map lower) (List.find?_congr fun i member => (direct (others i member)).symm)
  have back : ((List.finRange 8).map upper).find? (c.wanted mask₁ mask₂) =
      if bits mask₁ 2 then none else (firstLine fun j => c.slave.irr j && !bits mask₂ j).map upper := by
    rw [List.find?_map, firstLine]
    split
    · rename_i closed
      rw [List.find?_eq_none.mpr fun j _ => by simp [wanted_upper, closed], Option.map_none]
    · rename_i clear
      exact congrArg (Option.map upper) (List.find?_congr fun j _ => by simp [wanted_upper, clear])
  rw [lineOrder_eq, List.find?_append, List.find?_append, front _ (by decide), front _ (by decide), back, acknowledge,
    first, own, firstLine_eq fun i => c.lines i && !bits mask₁ i, cascade]
  have below {l : List (Fin 8)} (others : ∀ i ∈ l, i ≠ 2) {i : Fin 8}
      (hit : l.find? (fun i => c.lines i && !bits mask₁ i) = some i) : i ≠ 2 :=
    others i (List.mem_of_find?_eq_some hit)
  cases high : ([0, 1] : List (Fin 8)).find? fun i => c.lines i && !bits mask₁ i with
  | some i => simp [below (by decide) high, taken_lower ready]
  | none =>
    -- the second controller comes next, if it may interrupt and has something to interrupt for
    have rest : (match ([3, 4, 5, 6, 7] : List (Fin 8)).find? fun i => c.lines i && !bits mask₁ i with
        | none => none
        | some i => if i = 2 then (firstLine fun j => c.slave.irr j && !bits mask₂ j).map
              fun j => ((⟨c.master.take 2, c.slave.take j⟩, c.slave.base + UInt8.ofNat j) : PicPair × UInt8)
            else some (⟨c.master.take i, c.slave⟩, c.master.base + UInt8.ofNat i)) =
        ((([3, 4, 5, 6, 7] : List (Fin 8)).find? fun i => c.lines i && !bits mask₁ i).map lower).map
          fun n => (c.serve n, UInt8.ofNat (0x20 + n)) := by
      cases last : ([3, 4, 5, 6, 7] : List (Fin 8)).find? fun i => c.lines i && !bits mask₁ i with
      | some i => simp [below (by decide) last, taken_lower ready]
      | none => rfl
    cases closed : bits mask₁ 2 with
    | true => simpa using rest
    | false =>
      cases slave : firstLine fun j => c.slave.irr j && !bits mask₂ j with
      | some j => simp [taken_upper ready]
      | none => simpa [slave] using rest

/-- A byte with the number of a line is that of no other line. -/
theorem low_eq_iff {n m : Fin 16} (half : n.val < 8 ↔ m.val < 8) : low n = low m ↔ n = m := by
  revert n m
  decide

/-- Taking an interrupt leaves it in service, without its request. -/
theorem serve_serves (ready : c.Ready mask₁ mask₂) (idle : c.Idle) (n : Fin 16) : (c.serve n).Serves n := by
  have once (p : Pic) (manual : p.autoEoi = false) (none : ∀ i, p.isr i = false) (i j : Fin 8) :
      (p.take i).isr j = decide (j = i) := by
    simp [Pic.take, manual, Function.update_apply, none]
  unfold Serves serve
  split
  · exact ⟨once c.master ready.autoEoi.1 idle.1 (low n), idle.2⟩
  · exact ⟨once c.master ready.autoEoi.1 idle.1 2, once c.slave ready.autoEoi.2 idle.2 (low n)⟩

theorem serve_ready (ready : c.Ready mask₁ mask₂) (n : Fin 16) : (c.serve n).Ready mask₁ mask₂ := by
  obtain ⟨expect, autoEoi, base, masks⟩ := ready
  unfold serve
  split
  · exact ⟨expect, autoEoi, base, masks⟩
  · exact ⟨expect, autoEoi, base, masks⟩

theorem serve_pending (c : PicPair) (n m : Fin 16) :
    (c.serve n).pending m = Function.update c.pending n false m := by
  rw [Function.update_apply]
  unfold serve pending
  by_cases two : m = 2
  · rw [if_pos two, if_pos two, ite_self]
  · rw [if_neg two, if_neg two]
    by_cases half : n.val < 8
    · rw [if_pos half]
      by_cases less : m.val < 8
      · simp only [if_pos less, Pic.take, Function.update_apply, low_eq_iff (iff_of_true less half)]
      · have differ : m ≠ n := fun same => less (same ▸ half)
        simp only [if_neg less, if_neg differ]
    · rw [if_neg half]
      by_cases less : m.val < 8
      · have differ : m ≠ n := fun same => half (same ▸ less)
        have cascade : low m ≠ 2 := (low_eq_iff (m := 2) (iff_of_true less (by decide))).not.mpr two
        simp only [if_pos less, if_neg differ, Pic.take, Function.update_apply, if_neg cascade]
      · simp only [if_neg less, Pic.take, Function.update_apply, low_eq_iff (iff_of_false less half)]

theorem raise_pending (c : PicPair) {n : Fin 16} (device : n ≠ 2) (m : Fin 16) :
    (c.raise n).pending m = Function.update c.pending n true m := by
  rw [Function.update_apply]
  unfold raise pending
  rw [if_neg device]
  by_cases two : m = 2
  · have differ : m ≠ n := fun same => device (same ▸ two)
    rw [if_pos two, if_neg differ, if_pos two]
  · rw [if_neg two, if_neg two]
    by_cases half : n.val < 8
    · rw [if_pos half]
      by_cases less : m.val < 8
      · simp only [if_pos less, Pic.raise, Function.update_apply, low_eq_iff (iff_of_true less half)]
      · have differ : m ≠ n := fun same => less (same ▸ half)
        simp only [if_neg less, if_neg differ]
    · rw [if_neg half]
      by_cases less : m.val < 8
      · have differ : m ≠ n := fun same => half (same ▸ less)
        simp only [if_pos less, if_neg differ]
      · simp only [if_neg less, Pic.raise, Function.update_apply, low_eq_iff (iff_of_false less half)]

/-- A request changes nothing else. -/
theorem raise_kept (c : PicPair) (n : Fin 16) :
    ((c.raise n).Ready mask₁ mask₂ ↔ c.Ready mask₁ mask₂) ∧ ((c.raise n).Idle ↔ c.Idle) ∧
      ∀ m, (c.raise n).Serves m ↔ c.Serves m := by
  unfold raise
  split
  · exact ⟨Iff.rfl, Iff.rfl, fun _ => Iff.rfl⟩
  · split
    · exact ⟨⟨fun r => ⟨r.expect, r.autoEoi, r.base, r.masks⟩, fun r => ⟨r.expect, r.autoEoi, r.base, r.masks⟩⟩,
        Iff.rfl, fun _ => Iff.rfl⟩
    · exact ⟨⟨fun r => ⟨r.expect, r.autoEoi, r.base, r.masks⟩, fun r => ⟨r.expect, r.autoEoi, r.base, r.masks⟩⟩,
        Iff.rfl, fun _ => Iff.rfl⟩

end PicPair

theorem firstLine_only (i : Fin 8) : firstLine (fun j => decide (j = i)) = some i := by
  revert i
  decide

/-- The end of the only interrupt in service. -/
theorem Pic.endOfInterrupt_only {p : Pic} {i : Fin 8} (only : ∀ j, p.isr j = decide (j = i)) :
    p.endOfInterrupt = { p with isr := fun _ => false } := by
  have hit : firstLine p.isr = some i := by
    rw [funext only, firstLine_only]
  have clear : Function.update p.isr i false = fun _ => false := by
    funext j
    rw [Function.update_apply, only]
    simp
  simp only [Pic.endOfInterrupt, hit, clear]

/-- Without an interrupt in service, there is none to end. -/
theorem Pic.endOfInterrupt_idle {p : Pic} (idle : ∀ i, p.isr i = false) : p.endOfInterrupt = p := by
  have miss : firstLine p.isr = none := by
    rw [funext idle]
    rfl
  rw [Pic.endOfInterrupt, miss]

end X86
