import LearningOS.Io.Queues
import Mathlib.Data.List.GetD

namespace LearningOS
open RingBuffer

/-- The characters of the keys without a modifier; the table goes on with zeros. -/
def kbdus : List UInt8 :=
  [0, 27] ++ ['1', '2', '3', '4', '5', '6', '7', '8', '9', '0', '-', '='].map Char.toUInt8 ++ [8, 9] ++
  ['q', 'w', 'e', 'r', 't', 'y', 'u', 'i', 'o', 'p', '[', ']'].map Char.toUInt8 ++ [10, 0] ++
  ['a', 's', 'd', 'f', 'g', 'h', 'j', 'k', 'l', ';'].map Char.toUInt8 ++ [39, 96, 0, 92] ++
  ['z', 'x', 'c', 'v', 'b', 'n', 'm', ',', '.', '/'].map Char.toUInt8 ++ [0, 42, 0, 32]

/-- The characters of the keys while a shift key is held down. -/
def kbdusShift : List UInt8 :=
  [0, 27] ++ ['!', '@', '#', '$', '%', '^', '&', '*', '(', ')', '_', '+'].map Char.toUInt8 ++ [8, 9] ++
  ['Q', 'W', 'E', 'R', 'T', 'Y', 'U', 'I', 'O', 'P'].map Char.toUInt8 ++ [123, 125, 10, 0] ++
  ['A', 'S', 'D', 'F', 'G', 'H', 'J', 'K', 'L', ':'].map Char.toUInt8 ++ [34, 126, 0, 124] ++
  ['Z', 'X', 'C', 'V', 'B', 'N', 'M', '<', '>', '?'].map Char.toUInt8 ++ [0, 42, 0, 32]

/-- The letter case `keyboard_handler` gives a character, by `caps_lock ^ shift_pressed`. -/
def letterCase (upper : Bool) (c : Int8) : Int8 :=
  if 97 ≤ c ∧ c ≤ 122 then if upper then c - 97 + 65 else c
  else if 65 ≤ c ∧ c ≤ 90 then if upper then c else c - 65 + 97
  else c

/-- The character `keyboard_handler` forms from a key press; a `char` is signed. -/
def keyChar (shiftPressed capsLock : Bool) (scancode : UInt8) : Int8 :=
  letterCase (capsLock ^^ shiftPressed) ((if shiftPressed then kbdusShift else kbdus).getD scancode.toNat 0).toInt8

/-- The path of a character: the ring of `keyboard_buffer.c`, the event queue, the
modifiers of `keyboard.c` and the bytes that wait in the serial port. -/
structure Console where
  buffer : Ring 128 Int8
  input : Input
  shiftPressed : Bool
  capsLock : Bool
  rx : List UInt8

def kbdBufferPush (buffer : Ring 128 Int8) (c : Int8) : Ring 128 Int8 :=
  if buffer.Full then buffer else buffer.put c

/-- `kbd_buffer_pop`: the ring and the character, converted to `int`. -/
def kbdBufferPop (buffer : Ring 128 Int8) : Ring 128 Int8 × Int :=
  if buffer.tail = buffer.head then (buffer, -1) else (buffer.drop, buffer.front.toInt)

/-- What both handlers do with a character. -/
def Console.push (k : Console) (c : Int8) : Console :=
  if c = 0 then k else { k with buffer := kbdBufferPush k.buffer c, input := inputPushKey k.input c }

/-- `keyboard_handler`, after it read a scancode. -/
def keyboardHandler (k : Console) (scancode : UInt8) : Console :=
  if scancode &&& 0x80 ≠ 0 then
    if scancode &&& 0x7F = 0x2A ∨ scancode &&& 0x7F = 0x36 then { k with shiftPressed := false } else k
  else if scancode = 0x2A ∨ scancode = 0x36 then { k with shiftPressed := true }
  else if scancode = 0x3A then { k with capsLock := !k.capsLock }
  else if scancode < 128 then k.push (keyChar k.shiftPressed k.capsLock scancode)
  else k

/-- The loop of `serial_irq_handler` over the bytes that wait. -/
def serialIrqLoop (k : Console) : List UInt8 → Console
  | [] => { k with rx := [] }
  | c :: rx => serialIrqLoop ({ k with rx := rx }.push c.toInt8) rx

def serialIrqHandler (k : Console) : Console := serialIrqLoop k k.rx

/-- The character a key press stands for, if it is one of a character. -/
def typed (k : Console) (scancode : UInt8) : Option UInt8 :=
  if scancode &&& 0x80 ≠ 0 ∨ scancode = 0x2A ∨ scancode = 0x36 ∨ scancode = 0x3A ∨
      keyChar k.shiftPressed k.capsLock scancode = 0 then none
  else some (keyChar k.shiftPressed k.capsLock scancode).toUInt8

/-- How far a call of `keyboard_getchar` is: there is none, its pop failed, or
`serial_read_char` saw a byte and has not read it yet. -/
inductive GetcharAt
  | out
  | popped
  | ready
deriving DecidableEq

/-- A character the driver took from a device. -/
inductive Received
  | serial (c : UInt8)
  | key (c : UInt8)
deriving DecidableEq

def Received.value : Received → Int
  | .serial c => c.toNat
  | .key c => c.toNat

def Received.serial? : Received → Option UInt8
  | .serial c => some c
  | .key _ => none

/-- A run so far: the bytes that reached the serial port, the characters the
driver took from the devices and the results of `keyboard_getchar`. -/
structure ConsoleRun where
  console : Console
  call : GetcharAt
  arrived : List UInt8
  received : List Received
  results : List Int

/-- What can happen: a byte reaches the serial port, an interrupt, or the next
part of a call of `keyboard_getchar`. The data port reads as `stale` if it is empty. -/
inductive ConsoleOp
  | arrive (c : UInt8)
  | serialIrq
  | keyboardIrq (scancode : UInt8)
  | getchar (stale : UInt8)

/-- `keyboard_getchar`, in the parts between which an interrupt can come. -/
def getcharStep (r : ConsoleRun) (stale : UInt8) : ConsoleRun :=
  match r.call with
  | .out =>
    let (buffer, c) := kbdBufferPop r.console.buffer
    if 0 ≤ c then { r with console.buffer := buffer, results := r.results ++ [c] }
    else { r with console.buffer := buffer, call := .popped }
  | .popped => if r.console.rx = [] then { r with call := .out, results := r.results ++ [-1] } else { r with call := .ready }
  | .ready =>
    match r.console.rx with
    | [] => { r with call := .out, results := r.results ++ [(stale.toNat : Int)] }
    | c :: rx =>
      { r with
        console.rx := rx
        call := .out
        received := r.received ++ [.serial c]
        results := r.results ++ [(c.toNat : Int)] }

def consoleStep (r : ConsoleRun) : ConsoleOp → ConsoleRun
  | .arrive c => { r with console.rx := r.console.rx ++ [c], arrived := r.arrived ++ [c] }
  | .serialIrq =>
    { r with console := serialIrqHandler r.console, received := r.received ++ r.console.rx.map .serial }
  | .keyboardIrq scancode =>
    { r with
      console := keyboardHandler r.console scancode
      received := r.received ++ ((typed r.console scancode).map .key).toList }
  | .getchar stale => getcharStep r stale

/-- The bytes on the wire are not zero, and at each push fewer than 127
characters are pending. -/
def ConsoleOp.Allowed (r : ConsoleRun) : ConsoleOp → Prop
  | .arrive c => c ≠ 0
  | .serialIrq => ∀ k < r.console.rx.length, r.console.buffer.count + k < 127
  | .keyboardIrq scancode => typed r.console scancode ≠ none → r.console.buffer.count < 127
  | .getchar _ => True

/-- The interrupts that do no harm: no byte from 0x80 on goes through the ring, and
nothing enters the ring between the pop of a call and its read of the serial port. -/
def ConsoleOp.Harmless (r : ConsoleRun) : ConsoleOp → Prop
  | .serialIrq => (∀ c ∈ r.console.rx, c < 0x80) ∧ (r.call = .out ∨ r.console.rx = [])
  | .keyboardIrq scancode => r.call = .out ∨ typed r.console scancode = none
  | _ => True

/-- The runs after `keyboard_init` whose steps all meet a condition. -/
inductive ConsoleReach (condition : ConsoleRun → ConsoleOp → Prop) : ConsoleRun → Prop
  | init (k : Console) (head : k.buffer.head = 0) (tail : k.buffer.tail = 0) (rx : k.rx = []) :
      ConsoleReach condition ⟨k, .out, [], [], []⟩
  | step {r} (op : ConsoleOp) : ConsoleReach condition r → op.Allowed r → condition r op →
      ConsoleReach condition (consoleStep r op)

/-- No received character is lost or altered: the non-negative results are, in order,
the values of the received characters up to those that are pending in the ring, and
a call returns a negative result only if nothing is pending. -/
structure Delivers (r : ConsoleRun) : Prop where
  results : r.received.map Received.value =
    r.results.filter (0 ≤ ·) ++ r.console.buffer.contents.map Int8.toInt
  range : ∀ c ∈ r.results, 0 ≤ c → 1 ≤ c ∧ c ≤ 255
  arrived : r.arrived = r.received.filterMap Received.serial? ++ r.console.rx
  negative : ∀ stale c, (getcharStep r stale).results = r.results ++ [c] → c < 0 →
    r.console.buffer.contents = [] ∧ r.console.rx = []

theorem toInt8_toInt {c : UInt8} (small : c < 0x80) : c.toInt8.toInt = c.toNat := by
  have bound : c.toNat < 128 := UInt8.lt_iff_toNat_lt.mp small
  change c.toBitVec.toInt = c.toNat
  rw [BitVec.toInt_eq_toNat_cond]
  change (if 2 * c.toNat < 2 ^ 8 then (c.toNat : Int) else _) = _
  rw [if_pos (by omega)]

theorem toInt8_ne_zero {c : UInt8} (nonzero : c ≠ 0) : c.toInt8 ≠ 0 := fun zero => by
  have same : c.toInt8.toUInt8 = 0 := congrArg Int8.toUInt8 zero
  exact nonzero (c.toUInt8_toInt8.symm.trans same)

theorem keyChar_range (shiftPressed capsLock : Bool) (scancode : UInt8) :
    (keyChar shiftPressed capsLock scancode).toUInt8 < 0x80 := by
  have entries : ∀ table ∈ [kbdus, kbdusShift], ∀ upper : Bool,
      (table.all fun c => (letterCase upper c.toInt8).toUInt8 < 0x80) = true := by decide +kernel
  have member : (if shiftPressed then kbdusShift else kbdus) ∈ [kbdus, kbdusShift] := by
    cases shiftPressed
    · exact List.mem_cons_self
    · exact List.mem_cons_of_mem _ List.mem_cons_self
  unfold keyChar
  rcases lt_or_ge scancode.toNat (if shiftPressed then kbdusShift else kbdus).length with inside | outside
  · rw [List.getD_eq_getElem _ _ inside]
    exact of_decide_eq_true (List.all_eq_true.mp (entries _ member _) _ (List.getElem_mem inside))
  · rw [List.getD_eq_default _ _ outside]
    cases capsLock ^^ shiftPressed
    · decide
    · decide

theorem typed_range {k : Console} {scancode c : UInt8} (key : typed k scancode = some c) : c ≠ 0 ∧ c < 0x80 := by
  unfold typed at key
  split at key
  · simp at key
  · rename_i press
    have nonzero : keyChar k.shiftPressed k.capsLock scancode ≠ 0 := fun zero => press (by simp [zero])
    have same := Option.some.inj key
    constructor
    · intro zero
      have back : c.toInt8 = keyChar k.shiftPressed k.capsLock scancode := by rw [← same, Int8.toInt8_toUInt8]
      exact nonzero (back.symm.trans (by rw [zero]; rfl))
    · exact same ▸ keyChar_range ..

namespace Console
variable {k : Console}

theorem push_contents {c : Int8} (nonzero : c ≠ 0) (room : k.buffer.count < 127) :
    (k.push c).buffer.contents = k.buffer.contents ++ [c] := by
  have free : ¬k.buffer.Full := by
    rw [Ring.full_iff]
    omega
  rw [push, if_neg nonzero]
  change (kbdBufferPush k.buffer c).contents = _
  rw [kbdBufferPush, if_neg free, Ring.contents_put free]

theorem push_rx (c : Int8) : (k.push c).rx = k.rx := by
  unfold push
  split
  · rfl
  · rfl

end Console

/-- The loop appends the waiting bytes to the ring, as `char`s. -/
theorem serialIrqLoop_contents {rx : List UInt8} {k : Console} (nonzero : ∀ c ∈ rx, c ≠ 0)
    (room : ∀ j < rx.length, k.buffer.count + j < 127) :
    (serialIrqLoop k rx).buffer.contents = k.buffer.contents ++ rx.map UInt8.toInt8 ∧ (serialIrqLoop k rx).rx = [] := by
  induction rx generalizing k with
  | nil => exact ⟨(List.append_nil _).symm, rfl⟩
  | cons c rx ih =>
    have first : c.toInt8 ≠ 0 := toInt8_ne_zero (nonzero c List.mem_cons_self)
    have here : ({ k with rx := rx }.push c.toInt8).buffer.contents = k.buffer.contents ++ [c.toInt8] :=
      Console.push_contents first (room 0 (by simp))
    have count : ({ k with rx := rx }.push c.toInt8).buffer.count = k.buffer.count + 1 := by
      have length := congrArg List.length here
      simpa using length
    have rest := ih (k := { k with rx := rx }.push c.toInt8) (fun c member => nonzero c (List.mem_cons_of_mem _ member))
      (fun j less => by
        have later := room (j + 1) (by simpa using less)
        omega)
    refine ⟨?_, rest.2⟩
    change (serialIrqLoop ({ k with rx := rx }.push c.toInt8) rx).buffer.contents = _
    rw [rest.1, here, List.append_assoc]
    rfl

theorem press_lt {scancode : UInt8} (press : scancode &&& 0x80 = 0) : scancode < 128 := by
  have all : ∀ n : Fin 256, UInt8.ofFin n &&& 0x80 = 0 → UInt8.ofFin n < 128 := by decide +kernel
  exact all scancode.toFin press

/-- The handler pushes a character that is typed, and nothing else. -/
theorem keyboardHandler_typed (k : Console) (scancode : UInt8) :
    (∀ c, typed k scancode = some c → keyboardHandler k scancode = k.push c.toInt8) ∧
      (typed k scancode = none → (keyboardHandler k scancode).buffer = k.buffer ∧
        (keyboardHandler k scancode).input = k.input ∧ (keyboardHandler k scancode).rx = k.rx) := by
  unfold keyboardHandler
  by_cases release : scancode &&& 0x80 ≠ 0
  · have none : typed k scancode = none := if_pos (Or.inl release)
    rw [if_pos release, none]
    refine ⟨nofun, fun _ => ?_⟩
    split
    · exact ⟨rfl, rfl, rfl⟩
    · exact ⟨rfl, rfl, rfl⟩
  rw [if_neg release]
  by_cases shift : scancode = 0x2A ∨ scancode = 0x36
  · have none : typed k scancode = none := if_pos (by tauto)
    rw [if_pos shift, none]
    exact ⟨nofun, fun _ => ⟨rfl, rfl, rfl⟩⟩
  rw [if_neg shift]
  by_cases caps : scancode = 0x3A
  · have none : typed k scancode = none := if_pos (by tauto)
    rw [if_pos caps, none]
    exact ⟨nofun, fun _ => ⟨rfl, rfl, rfl⟩⟩
  rw [if_neg caps, if_pos (press_lt (not_not.mp release))]
  by_cases zero : keyChar k.shiftPressed k.capsLock scancode = 0
  · have none : typed k scancode = none := if_pos (by tauto)
    rw [none, zero, Console.push, if_pos rfl]
    exact ⟨nofun, fun _ => ⟨rfl, rfl, rfl⟩⟩
  · have key : typed k scancode = some (keyChar k.shiftPressed k.capsLock scancode).toUInt8 := if_neg (by tauto)
    rw [key]
    refine ⟨fun c same => ?_, nofun⟩
    rw [← Option.some.inj same, Int8.toInt8_toUInt8]

/-- The handler appends the character of a key press to the ring and leaves the
serial port alone. -/
theorem keyboardHandler_contents {k : Console} {scancode : UInt8}
    (room : typed k scancode ≠ none → k.buffer.count < 127) :
    (keyboardHandler k scancode).buffer.contents =
        k.buffer.contents ++ (typed k scancode).toList.map UInt8.toInt8 ∧
      (keyboardHandler k scancode).rx = k.rx := by
  obtain ⟨pushed, kept⟩ := keyboardHandler_typed k scancode
  cases key : typed k scancode with
  | none =>
    obtain ⟨buffer, _, rx⟩ := kept key
    rw [buffer, rx]
    exact ⟨by simp, rfl⟩
  | some c =>
    have nonzero : c.toInt8 ≠ 0 := toInt8_ne_zero (typed_range key).1
    rw [pushed c key, Console.push_contents nonzero (room (by simp [key]))]
    exact ⟨rfl, Console.push_rx _⟩

/-- What a run keeps: both queues hold what was received and not returned, the ring
holds positive characters, and a call that waits for the serial port saw an empty ring. -/
structure ConsoleInv (r : ConsoleRun) : Prop where
  results : r.received.map Received.value =
    r.results.filter (0 ≤ ·) ++ r.console.buffer.contents.map Int8.toInt
  range : ∀ c ∈ r.received, 1 ≤ c.value ∧ c.value ≤ 255
  arrived : r.arrived = r.received.filterMap Received.serial? ++ r.console.rx
  nonzero : ∀ c ∈ r.console.rx, c ≠ 0
  empty : r.call ≠ .out → r.console.buffer.contents = []
  waiting : r.call = .ready → r.console.rx ≠ []

theorem byte_range {c : UInt8} (nonzero : c ≠ 0) : 1 ≤ (c.toNat : Int) ∧ (c.toNat : Int) ≤ 255 := by
  have bound := c.toNat_lt
  have positive : c.toNat ≠ 0 := fun zero => nonzero (UInt8.toNat_inj.mp zero)
  omega

theorem toInt8_values {cs : List UInt8} (small : ∀ c ∈ cs, c < 0x80) :
    cs.map (fun c => (c.toNat : Int)) = (cs.map UInt8.toInt8).map Int8.toInt := by
  rw [List.map_map]
  exact List.map_congr_left fun c member => (toInt8_toInt (small c member)).symm

namespace ConsoleInv
variable {r : ConsoleRun}

theorem contents_range (inv : ConsoleInv r) {c : Int8} (member : c ∈ r.console.buffer.contents) : 0 ≤ c.toInt := by
  have pending : c.toInt ∈ r.received.map Received.value := by
    rw [inv.results]
    exact List.mem_append_right _ (List.mem_map_of_mem member)
  obtain ⟨taken, inside, same⟩ := List.mem_map.mp pending
  have bound := inv.range taken inside
  omega

theorem serialIrq (inv : ConsoleInv r) (allowed : ConsoleOp.serialIrq.Allowed r) (harmless : ConsoleOp.serialIrq.Harmless r) :
    ConsoleInv (consoleStep r .serialIrq) := by
  obtain ⟨contents, rx⟩ := serialIrqLoop_contents inv.nonzero allowed
  exact {
    results := by
      change (r.received ++ r.console.rx.map Received.serial).map Received.value =
        _ ++ (serialIrqLoop r.console r.console.rx).buffer.contents.map Int8.toInt
      rw [contents, List.map_append, List.map_append, inv.results, List.append_assoc, List.map_map,
        ← toInt8_values harmless.1]
      rfl
    range := by
      intro c member
      rcases List.mem_append.mp member with old | new
      · exact inv.range c old
      · obtain ⟨b, inside, rfl⟩ := List.mem_map.mp new
        exact byte_range (inv.nonzero b inside)
    arrived := by
      change r.arrived = (r.received ++ r.console.rx.map Received.serial).filterMap Received.serial? ++
        (serialIrqLoop r.console r.console.rx).rx
      rw [rx, inv.arrived, List.filterMap_append, List.filterMap_map, List.append_nil]
      exact congrArg _ (List.filterMap_some).symm
    nonzero := by
      intro c member
      change c ∈ (serialIrqLoop r.console r.console.rx).rx at member
      simp [rx] at member
    empty := by
      intro inside
      change (serialIrqLoop r.console r.console.rx).buffer.contents = []
      rw [contents, inv.empty inside, harmless.2.resolve_left inside]
      rfl
    waiting := by
      intro ready
      have out : r.call ≠ .out := by
        rw [show r.call = .ready from ready]
        decide
      exact absurd (harmless.2.resolve_left out) (inv.waiting ready) }

theorem keyboardIrq (inv : ConsoleInv r) {scancode : UInt8} (allowed : (ConsoleOp.keyboardIrq scancode).Allowed r)
    (harmless : (ConsoleOp.keyboardIrq scancode).Harmless r) : ConsoleInv (consoleStep r (.keyboardIrq scancode)) := by
  obtain ⟨contents, rx⟩ := keyboardHandler_contents allowed
  exact {
    results := by
      change (r.received ++ ((typed r.console scancode).map Received.key).toList).map Received.value =
        _ ++ (keyboardHandler r.console scancode).buffer.contents.map Int8.toInt
      rw [contents, List.map_append, List.map_append, inv.results, List.append_assoc]
      refine congrArg _ (congrArg _ ?_)
      cases key : typed r.console scancode with
      | none => rfl
      | some c =>
        change [(c.toNat : Int)] = [c.toInt8.toInt]
        rw [toInt8_toInt (typed_range key).2]
    range := by
      intro c member
      rcases List.mem_append.mp member with old | new
      · exact inv.range c old
      · cases key : typed r.console scancode with
        | none => simp [key] at new
        | some b =>
          simp only [key, Option.map_some, Option.toList_some, List.mem_singleton] at new
          exact new ▸ byte_range (typed_range key).1
    arrived := by
      change r.arrived = (r.received ++ ((typed r.console scancode).map Received.key).toList).filterMap
        Received.serial? ++ (keyboardHandler r.console scancode).rx
      rw [rx, inv.arrived, List.filterMap_append]
      cases typed r.console scancode with
      | none => simp
      | some c => simp [Received.serial?]
    nonzero := by
      intro c member
      change c ∈ (keyboardHandler r.console scancode).rx at member
      exact inv.nonzero c (rx ▸ member)
    empty := by
      intro inside
      change (keyboardHandler r.console scancode).buffer.contents = []
      rw [contents, inv.empty inside, harmless.resolve_left inside]
      rfl
    waiting := by
      intro ready
      change (keyboardHandler r.console scancode).rx ≠ []
      rw [rx]
      exact inv.waiting ready }

theorem arrive (inv : ConsoleInv r) {c : UInt8} (nonzero : c ≠ 0) : ConsoleInv (consoleStep r (.arrive c)) where
  results := inv.results
  range := inv.range
  arrived := by
    change r.arrived ++ [c] = r.received.filterMap Received.serial? ++ (r.console.rx ++ [c])
    rw [inv.arrived, List.append_assoc]
  nonzero := by
    intro b member
    rcases List.mem_append.mp member with old | new
    · exact inv.nonzero b old
    · exact List.mem_singleton.mp new ▸ nonzero
  empty := inv.empty
  waiting := fun _ => List.append_ne_nil_of_right_ne_nil _ (by simp)

/-- The pop at the start of a call takes the oldest character of the ring, and
fails only if the ring is empty. -/
theorem getchar_out (inv : ConsoleInv r) (out : r.call = .out) (stale : UInt8) :
    (r.console.buffer.contents = [] ∧ getcharStep r stale = { r with call := .popped }) ∨
      ∃ c buffer, r.console.buffer.contents = c :: buffer.contents ∧
        getcharStep r stale = { r with console.buffer := buffer, results := r.results ++ [c.toInt] } := by
  simp only [getcharStep, out, kbdBufferPop]
  by_cases none : r.console.buffer.tail = r.console.buffer.head
  · simp only [if_pos none]
    exact Or.inl ⟨(Ring.empty_iff _).mp none.symm, rfl⟩
  · have first := Ring.contents_drop (q := r.console.buffer) fun same => none same.symm
    have positive : 0 ≤ r.console.buffer.front.toInt := inv.contents_range (first ▸ List.mem_cons_self)
    simp only [if_neg none, if_pos positive]
    exact Or.inr ⟨_, _, first, rfl⟩

theorem getchar (inv : ConsoleInv r) (stale : UInt8) : ConsoleInv (getcharStep r stale) := by
  cases call : r.call with
  | out =>
    rcases inv.getchar_out call stale with ⟨none, step⟩ | ⟨c, buffer, first, step⟩
    · rw [step]
      exact { inv with empty := fun _ => none, waiting := fun ready => by simp at ready }
    · have positive : 0 ≤ c.toInt := inv.contents_range (first ▸ List.mem_cons_self)
      rw [step]
      exact {
        results := by
          change _ = (r.results ++ [c.toInt]).filter (0 ≤ ·) ++ buffer.contents.map Int8.toInt
          rw [inv.results, first, List.filter_append, List.append_assoc, List.filter_singleton]
          simp [positive]
        range := inv.range
        arrived := inv.arrived
        nonzero := inv.nonzero
        empty := fun inside => absurd call inside
        waiting := inv.waiting }
  | popped =>
    simp only [getcharStep, call]
    split
    · exact { inv with
        results := by
          change _ = (r.results ++ [-1]).filter (0 ≤ ·) ++ _
          rw [inv.results, List.filter_append]
          simp
        empty := fun inside => absurd rfl inside
        waiting := fun ready => by simp at ready }
    · rename_i some
      exact { inv with
        empty := fun _ => inv.empty (by simp [call])
        waiting := fun _ => some }
  | ready =>
    simp only [getcharStep, call]
    split
    · rename_i none
      exact absurd none (inv.waiting call)
    · rename_i c rx first
      have none := inv.empty (by simp [call])
      have positive : (0 : Int) ≤ c.toNat := Int.natCast_nonneg _
      have nonzero := inv.nonzero
      rw [first] at nonzero
      exact {
        results := by
          change (r.received ++ [Received.serial c]).map Received.value =
            (r.results ++ [(c.toNat : Int)]).filter (0 ≤ ·) ++ r.console.buffer.contents.map Int8.toInt
          rw [List.map_append, inv.results, none, List.filter_append]
          simp [Received.value]
        range := by
          intro taken member
          rcases List.mem_append.mp member with old | new
          · exact inv.range taken old
          · exact List.mem_singleton.mp new ▸ byte_range (nonzero c List.mem_cons_self)
        arrived := by
          change r.arrived = (r.received ++ [Received.serial c]).filterMap Received.serial? ++ rx
          rw [inv.arrived, first, List.filterMap_append, List.append_assoc]
          rfl
        nonzero := fun b member => nonzero b (List.mem_cons_of_mem _ member)
        empty := fun inside => absurd rfl inside
        waiting := fun ready => by simp at ready }

theorem delivers (inv : ConsoleInv r) : Delivers r where
  results := inv.results
  range := by
    intro c member positive
    have taken : c ∈ r.received.map Received.value := by
      rw [inv.results]
      exact List.mem_append_left _ (List.mem_filter.mpr ⟨member, by simpa using positive⟩)
    obtain ⟨byte, inside, same⟩ := List.mem_map.mp taken
    exact same ▸ inv.range byte inside
  arrived := inv.arrived
  negative := by
    intro stale c result negative
    cases call : r.call with
    | out =>
      rcases inv.getchar_out call stale with ⟨none, step⟩ | ⟨first, buffer, contents, step⟩
      · simp [step] at result
      · have positive : 0 ≤ first.toInt := inv.contents_range (contents ▸ List.mem_cons_self)
        rw [step] at result
        have same := List.singleton_inj.mp (List.append_cancel_left result)
        omega
    | popped =>
      refine ⟨inv.empty (by simp [call]), ?_⟩
      by_contra some
      simp [getcharStep, call, some] at result
    | ready =>
      simp only [getcharStep, call] at result
      split at result
      · have same := List.singleton_inj.mp (List.append_cancel_left result)
        omega
      · have same := List.singleton_inj.mp (List.append_cancel_left result)
        omega

end ConsoleInv

theorem ConsoleReach.inv {r : ConsoleRun} (reach : ConsoleReach (fun r op => op.Harmless r) r) : ConsoleInv r := by
  induction reach with
  | init k head tail rx =>
    have none : k.buffer.contents = [] := (Ring.empty_iff _).mp (head.trans tail.symm)
    exact {
      results := by simp [none]
      range := by simp
      arrived := by simp [rx]
      nonzero := by simp [rx]
      empty := fun _ => none
      waiting := fun ready => by simp at ready }
  | step op _ allowed harmless ih =>
    cases op with
    | arrive c => exact ih.arrive allowed
    | serialIrq => exact ih.serialIrq allowed harmless
    | keyboardIrq scancode => exact ih.keyboardIrq allowed harmless
    | getchar stale => exact ih.getchar stale

/-- In every run in which no byte from 0x80 on goes through the ring and no interrupt
fills the ring in the middle of a call, every received character is returned. -/
theorem getchar_delivers {r : ConsoleRun} (reach : ConsoleReach (fun r op => op.Harmless r) r) : Delivers r :=
  reach.inv.delivers

def consoleStart : Console :=
  ⟨⟨fun _ => 0, ⟨0, Nat.zero_lt_succ _⟩, ⟨0, Nat.zero_lt_succ _⟩⟩,
    ⟨fun _ => ⟨0, 0, 0, 0⟩, ⟨0, Nat.zero_lt_succ _⟩, ⟨0, Nat.zero_lt_succ _⟩⟩, false, false, []⟩

theorem getchar_delivers_polled_byte :
    ∃ r, ConsoleReach (fun r op => op.Harmless r) r ∧ r.received = [.key 0x61, .serial 0xE9] ∧
      r.results = [0x61, 0xE9] ∧ Delivers r := by
  have start : ConsoleReach (fun r op => op.Harmless r) _ := .init consoleStart rfl rfl rfl
  have arrived := ConsoleReach.step (.arrive 0xE9) start (show (0xE9 : UInt8) ≠ 0 by decide) trivial
  have pressed := ConsoleReach.step (.keyboardIrq 0x1E) arrived (fun _ => by decide) (Or.inl rfl)
  have first := ConsoleReach.step (.getchar 0) pressed trivial trivial
  have popped := ConsoleReach.step (.getchar 0) first trivial trivial
  have ready := ConsoleReach.step (.getchar 0) popped trivial trivial
  have second := ConsoleReach.step (.getchar 0) ready trivial trivial
  exact ⟨_, second, by decide, by decide, getchar_delivers second⟩

/-- The byte 0xE9 that came through the serial interrupt is a negative `char`: the
next call takes it from the ring, returns -1, and it is gone. -/
theorem getchar_loses_byte :
    ∃ r, ConsoleReach (fun _ _ => True) r ∧ r.received = [.serial 0xE9] ∧ r.results = [-1] ∧
      r.console.buffer.contents = [] ∧ r.console.rx = [] ∧ ¬Delivers r := by
  have start : ConsoleReach (fun _ _ => True) _ := .init consoleStart rfl rfl rfl
  have arrived := ConsoleReach.step (.arrive 0xE9) start (show (0xE9 : UInt8) ≠ 0 by decide) trivial
  have room : ∀ k < 1, 0 + k < 127 := fun k less => by omega
  have pushed := ConsoleReach.step .serialIrq arrived room trivial
  have popped := ConsoleReach.step (.getchar 0) pushed trivial trivial
  have failed := ConsoleReach.step (.getchar 0) popped trivial trivial
  refine ⟨_, failed, by decide, by decide, by decide, by decide, fun delivers => ?_⟩
  exact absurd delivers.results (by decide)

end LearningOS
