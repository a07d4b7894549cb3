import LearningOS.Io.Console
import LearningOS.Io.Mouse
import LearningOS.Store.RingReader

namespace LearningOS
open RingBuffer

/-- The globals of the drivers that put characters and events into their queues. The queue of
events is the one of `console`; `mouse` has a copy of it during its interrupt alone. -/
structure InputGlobals where
  console : Console
  mouse : Mouse

/-- An interrupt, with what its handler reads from the ports: a scancode, the bytes that wait
in the serial port until it is empty, or the status and the data of the mouse. -/
inductive InputIrq
  | keyboard (scancode : UInt8)
  | serial (rx : List UInt8)
  | mouse (status data : UInt8)
deriving DecidableEq

/-- A handler runs to its end, since interrupts are off in it. -/
def InputIrq.run (g : InputGlobals) : InputIrq → InputGlobals
  | .keyboard scancode => { g with console := keyboardHandler g.console scancode }
  | .serial rx => { g with console := serialIrqLoop g.console rx }
  | .mouse status data =>
    let handled := (mouseHandler { g.mouse with input := g.console.input } status data).mouse
    { console := { g.console with input := handled.input }, mouse := handled }

/-- An event in memory. -/
def InputEvent.bytes (ev : InputEvent) : List UInt8 :=
  [ev.type, ev.flags, UInt8.ofNat ev.a.toUInt16.toNat, UInt8.ofNat (ev.a.toUInt16.toNat / 256),
    UInt8.ofNat ev.b.toUInt16.toNat, UInt8.ofNat (ev.b.toUInt16.toNat / 256)]

def InputEvent.byte (i : Nat) (ev : InputEvent) : UInt8 := ev.bytes.getD i 0

def shortAt (bytes : List UInt8) (i : Nat) : Int16 :=
  (UInt16.ofNat ((bytes.getD i 0).toNat + 256 * (bytes.getD (i + 1) 0).toNat)).toInt16

/-- The event that the bytes at a pointer are. -/
def InputEvent.ofBytes (bytes : List UInt8) : InputEvent :=
  ⟨bytes.getD 0 0, bytes.getD 1 0, shortAt bytes 2, shortAt bytes 4⟩

/-- An interrupt, or the next access of the call of `kbd_buffer_pop` or `input_pop` that it can
come in the middle of. A call begins with its first access. -/
inductive PopOp
  | irq (i : InputIrq)
  | keyAccess
  | inputAccess
deriving DecidableEq

/-- The globals, where the two pops are, and what those that ended returned. `input_pop` returns
0 and stores an event, or returns -1, which is `none`. -/
structure PopRun where
  globals : InputGlobals
  key : PopAt 128 Int8
  event : PopAt 64 UInt8
  keys : List Int
  events : List (Option InputEvent)

/-- What `kbd_buffer_pop` returns for the character it loaded. -/
def keyResult : Option (List Int8) → Int
  | none => -1
  | some words => (words.headD 0).toInt

namespace PopRun

def accessKey (r : PopRun) : Accessed 128 Int8 Int8 := r.globals.console.buffer.access (fun _ c => c) 1 r.key

/-- The struct is copied byte by byte. -/
def accessInput (r : PopRun) : Accessed 64 InputEvent UInt8 := r.globals.console.input.access InputEvent.byte 6 r.event

def step (r : PopRun) : PopOp → PopRun
  | .irq i => { r with globals := i.run r.globals }
  | .keyAccess =>
    { r with
      globals.console.buffer := r.accessKey.ring
      key := r.accessKey.pop
      keys := r.keys ++ (r.accessKey.returned.map keyResult).toList }
  | .inputAccess =>
    { r with
      globals.console.input := r.accessInput.ring
      event := r.accessInput.pop
      events := r.events ++ (r.accessInput.returned.map (Option.map InputEvent.ofBytes)).toList }

def run (r : PopRun) (ops : List PopOp) : PopRun := ops.foldl step r

/-- No pop has begun. -/
def start (g : InputGlobals) : PopRun := ⟨g, .out, .out, [], []⟩

end PopRun

/-- An interrupt, or a whole call that no interrupt comes in the middle of. -/
inductive WholeOp
  | irq (i : InputIrq)
  | kbdBufferPop
  | inputPop

/-- The globals and what the calls returned. -/
structure WholeRun where
  globals : InputGlobals
  keys : List Int
  events : List (Option InputEvent)

def WholeRun.step (w : WholeRun) : WholeOp → WholeRun
  | .irq i => { w with globals := i.run w.globals }
  | .kbdBufferPop =>
    let (buffer, c) := kbdBufferPop w.globals.console.buffer
    { w with globals.console.buffer := buffer, keys := w.keys ++ [c] }
  | .inputPop =>
    let (input, _, ev) := LearningOS.inputPop w.globals.console.input true
    { w with globals.console.input := input, events := w.events ++ [ev] }

def WholeRun.run (w : WholeRun) (ops : List WholeOp) : WholeRun := ops.foldl step w

/-- A pop happens as a whole at the access it returns after. -/
def PopRun.whole (r : PopRun) : PopOp → List WholeOp
  | .irq i => [.irq i]
  | .keyAccess => if r.accessKey.returned.isSome then [.kbdBufferPop] else []
  | .inputAccess => if r.accessInput.returned.isSome then [.inputPop] else []

def PopRun.wholes (r : PopRun) : List PopOp → List WholeOp
  | [] => []
  | op :: ops => r.whole op ++ (r.step op).wholes ops

section
variable {P : Ring 128 Int8 → Prop} {Q : Input → Prop} {k : Console}

theorem Console.push_keeps (buffer : ∀ q c, P q → P (kbdBufferPush q c)) (input : ∀ q ev, Q q → Q (inputPush q ev))
    (holds : P k.buffer ∧ Q k.input) (c : Int8) : P (k.push c).buffer ∧ Q (k.push c).input := by
  unfold push
  split
  · exact holds
  · exact ⟨buffer _ _ holds.1, input _ _ holds.2⟩

theorem serialIrqLoop_keeps (buffer : ∀ q c, P q → P (kbdBufferPush q c)) (input : ∀ q ev, Q q → Q (inputPush q ev))
    (holds : P k.buffer ∧ Q k.input) (rx : List UInt8) : P (serialIrqLoop k rx).buffer ∧ Q (serialIrqLoop k rx).input := by
  induction rx generalizing k with
  | nil => exact holds
  | cons c rx ih => exact ih (Console.push_keeps (k := { k with rx := rx }) buffer input holds c.toInt8)

/-- What all pushes keep of the two queues, every interrupt keeps. -/
theorem InputIrq.keeps {g : InputGlobals} (buffer : ∀ q c, P q → P (kbdBufferPush q c))
    (input : ∀ q ev, Q q → Q (inputPush q ev)) (holds : P g.console.buffer ∧ Q g.console.input) (i : InputIrq) :
    P (i.run g).console.buffer ∧ Q (i.run g).console.input := by
  cases i with
  | keyboard scancode =>
    obtain ⟨pushed, kept⟩ := keyboardHandler_typed g.console scancode
    change P (keyboardHandler g.console scancode).buffer ∧ Q (keyboardHandler g.console scancode).input
    cases key : typed g.console scancode with
    | none =>
      obtain ⟨sameBuffer, sameInput, _⟩ := kept key
      rw [sameBuffer, sameInput]
      exact holds
    | some c =>
      rw [pushed c key]
      exact Console.push_keeps buffer input holds _
  | serial rx => exact serialIrqLoop_keeps buffer input holds rx
  | mouse status data =>
    refine ⟨holds.1, ?_⟩
    change Q (mouseHandler { g.mouse with input := g.console.input } status data).mouse.input
    rw [mouseHandler_input]
    cases (mouseHandler { g.mouse with input := g.console.input } status data).call with
    | none => exact holds.2
    | some call =>
      obtain ⟨ev, run, _⟩ := call.run_eq g.console.input
      change Q (call.run g.console.input)
      rw [run]
      exact input _ _ holds.2

end

theorem shortAt_bytes {bytes : List UInt8} {i : Nat} (v : Int16)
    (low : bytes.getD i 0 = UInt8.ofNat v.toUInt16.toNat)
    (high : bytes.getD (i + 1) 0 = UInt8.ofNat (v.toUInt16.toNat / 256)) : shortAt bytes i = v := by
  have bound := v.toUInt16.toNat_lt
  have value : v.toUInt16.toNat % 256 + 256 * (v.toUInt16.toNat / 256 % 256) = v.toUInt16.toNat := by omega
  rw [shortAt, low, high, UInt8.toNat_ofNat', UInt8.toNat_ofNat']
  change (UInt16.ofNat (v.toUInt16.toNat % 256 + 256 * (v.toUInt16.toNat / 256 % 256))).toInt16 = v
  rw [value, UInt16.ofNat_toNat, Int16.toInt16_toUInt16]

/-- The bytes of an event, loaded one by one, are the event again. -/
theorem InputEvent.ofBytes_parts (ev : InputEvent) : InputEvent.ofBytes (parts InputEvent.byte 6 ev) = ev := by
  have loaded : parts InputEvent.byte 6 ev = ev.bytes := rfl
  rw [loaded, ofBytes, shortAt_bytes ev.a rfl rfl, shortAt_bytes ev.b rfl rfl]
  rfl

/-- The two machines agree, and each pop holds the element that is still in front. -/
structure PopRun.Agrees (r : PopRun) (w : WholeRun) : Prop where
  globals : r.globals = w.globals
  keys : r.keys = w.keys
  events : r.events = w.events
  key : r.key.Holds (fun _ c => c) 1 r.globals.console.buffer
  event : r.event.Holds InputEvent.byte 6 r.globals.console.input

namespace PopRun.Agrees
variable {r : PopRun} {w : WholeRun}

theorem irq (agrees : r.Agrees w) (i : InputIrq) : (r.step (.irq i)).Agrees (w.run (r.whole (.irq i))) := by
  obtain ⟨globals, keys, events, key, event⟩ := agrees
  have kept := InputIrq.keeps (g := r.globals) (P := r.key.Holds (fun _ c => c) 1) (Q := r.event.Holds InputEvent.byte 6)
    (fun q c holds => by
      unfold kbdBufferPush
      split
      · exact holds
      · rename_i room
        exact holds.put room c)
    (fun q ev holds => by
      unfold inputPush
      split
      · exact holds
      · rename_i room
        exact holds.put room ev)
    ⟨key, event⟩ i
  exact ⟨congrArg (InputIrq.run · i) globals, keys, events, kept.1, kept.2⟩

theorem keyAccess (agrees : r.Agrees w) : (r.step .keyAccess).Agrees (w.run (r.whole .keyAccess)) := by
  obtain ⟨globals, keys, events, key, event⟩ := agrees
  have access : r.accessKey.Atomic _ 1 r.globals.console.buffer := key.access
  simp only [step, whole]
  generalize r.accessKey = accessed at access ⊢
  cases access with
  | silent pop holds => exact ⟨globals, (List.append_nil r.keys).trans keys, events, holds, event⟩
  | missed empty =>
    have result : kbdBufferPop r.globals.console.buffer = (r.globals.console.buffer, -1) := if_pos empty.symm
    refine ⟨?_, ?_, events, trivial, event⟩
    · change r.globals = { w.globals with console.buffer := (kbdBufferPop w.globals.console.buffer).1 }
      rw [← globals, result]
    · change r.keys ++ [-1] = w.keys ++ [(kbdBufferPop w.globals.console.buffer).2]
      rw [← globals, result, keys]
  | took waiting =>
    have result : kbdBufferPop r.globals.console.buffer =
        (r.globals.console.buffer.drop, r.globals.console.buffer.front.toInt) := if_neg (Ne.symm waiting)
    refine ⟨?_, ?_, events, trivial, event⟩
    · change { r.globals with console.buffer := r.globals.console.buffer.drop } =
        { w.globals with console.buffer := (kbdBufferPop w.globals.console.buffer).1 }
      rw [← globals, result]
    · change r.keys ++ [r.globals.console.buffer.front.toInt] = w.keys ++ [(kbdBufferPop w.globals.console.buffer).2]
      rw [← globals, result, keys]

theorem inputAccess (agrees : r.Agrees w) : (r.step .inputAccess).Agrees (w.run (r.whole .inputAccess)) := by
  obtain ⟨globals, keys, events, key, event⟩ := agrees
  have access : r.accessInput.Atomic _ 6 r.globals.console.input := event.access
  simp only [step, whole]
  generalize r.accessInput = accessed at access ⊢
  cases access with
  | silent pop holds => exact ⟨globals, keys, (List.append_nil r.events).trans events, key, holds⟩
  | missed empty =>
    have result : inputPop r.globals.console.input true = (r.globals.console.input, -1, none) := if_pos (.inr empty)
    refine ⟨?_, keys, ?_, key, trivial⟩
    · change r.globals = { w.globals with console.input := (inputPop w.globals.console.input true).1 }
      rw [← globals, result]
    · change r.events ++ [none] = w.events ++ [(inputPop w.globals.console.input true).2.2]
      rw [← globals, result, events]
  | took waiting =>
    have result : inputPop r.globals.console.input true =
        (r.globals.console.input.drop, 0, some r.globals.console.input.front) := if_neg (by simpa using waiting)
    refine ⟨?_, keys, ?_, key, trivial⟩
    · change { r.globals with console.input := r.globals.console.input.drop } =
        { w.globals with console.input := (inputPop w.globals.console.input true).1 }
      rw [← globals, result]
    · change r.events ++ [some (InputEvent.ofBytes (parts InputEvent.byte 6 r.globals.console.input.front))] =
        w.events ++ [(inputPop w.globals.console.input true).2.2]
      rw [← globals, result, events, InputEvent.ofBytes_parts]

theorem step (agrees : r.Agrees w) (op : PopOp) : (r.step op).Agrees (w.run (r.whole op)) := by
  cases op with
  | irq i => exact agrees.irq i
  | keyAccess => exact agrees.keyAccess
  | inputAccess => exact agrees.inputAccess

theorem run (agrees : r.Agrees w) (ops : List PopOp) : (r.run ops).Agrees (w.run (r.wholes ops)) := by
  induction ops generalizing r w with
  | nil => exact agrees
  | cons op ops ih =>
    rw [PopRun.wholes, WholeRun.run, List.foldl_append]
    exact ih (agrees.step op)

/-- Each fourth access to the ring of characters, and each ninth to the queue of events, is the
last of its pop. -/
theorem step_made (agrees : r.Agrees w) (op : PopOp) :
    [op].count .keyAccess + (4 * r.keys.length + r.key.made) ≤ 4 * (r.step op).keys.length + (r.step op).key.made ∧
    [op].count .inputAccess + (9 * r.events.length + r.event.made) ≤
      9 * (r.step op).events.length + (r.step op).event.made := by
  cases op with
  | irq i => exact ⟨(Nat.zero_add _).le, (Nat.zero_add _).le⟩
  | keyAccess =>
    refine ⟨?_, (Nat.zero_add _).le⟩
    have more : r.key.made + 1 ≤ 4 * r.accessKey.returned.toList.length + r.accessKey.pop.made := agrees.key.made_access
    change 1 + _ ≤ 4 * (r.keys ++ (r.accessKey.returned.map keyResult).toList).length + r.accessKey.pop.made
    rw [List.length_append, Option.toList_map, List.length_map]
    omega
  | inputAccess =>
    refine ⟨(Nat.zero_add _).le, ?_⟩
    have more : r.event.made + 1 ≤ 9 * r.accessInput.returned.toList.length + r.accessInput.pop.made :=
      agrees.event.made_access
    change 1 + _ ≤ 9 * (r.events ++ (r.accessInput.returned.map (Option.map InputEvent.ofBytes)).toList).length +
      r.accessInput.pop.made
    rw [List.length_append, Option.toList_map, List.length_map]
    omega

theorem run_made (agrees : r.Agrees w) (ops : List PopOp) :
    ops.count .keyAccess + (4 * r.keys.length + r.key.made) ≤ 4 * (r.run ops).keys.length + (r.run ops).key.made ∧
    ops.count .inputAccess + (9 * r.events.length + r.event.made) ≤
      9 * (r.run ops).events.length + (r.run ops).event.made := by
  induction ops generalizing r w with
  | nil => exact ⟨(Nat.zero_add _).le, (Nat.zero_add _).le⟩
  | cons op ops ih =>
    have here := agrees.step_made op
    have rest := ih (agrees.step op)
    have split : op :: ops = [op] ++ ops := rfl
    have run : r.run ([op] ++ ops) = (r.step op).run ops := rfl
    rw [split, List.count_append, List.count_append, run]
    exact ⟨by omega, by omega⟩

end PopRun.Agrees

/-- However the interrupts come between the accesses of `kbd_buffer_pop` and `input_pop`, the
globals and the results are those of whole calls, each at the place of its last access, and a
call returns after its fourth or its ninth access at the latest. -/
theorem interrupted_pops_atomic (g : InputGlobals) (ops : List PopOp) :
    let r := (PopRun.start g).run ops
    let w := WholeRun.run ⟨g, [], []⟩ ((PopRun.start g).wholes ops)
    (r.globals = w.globals ∧ r.keys = w.keys ∧ r.events = w.events) ∧
      ops.count .keyAccess < 4 * (r.keys.length + 1) ∧ ops.count .inputAccess < 9 * (r.events.length + 1) := by
  intro r w
  have start : (PopRun.start g).Agrees ⟨g, [], []⟩ := ⟨rfl, rfl, rfl, trivial, trivial⟩
  have agrees := start.run ops
  obtain ⟨key, event⟩ := start.run_made ops
  have fewKey : r.key.made < 4 := agrees.key.made_lt
  have fewEvent : r.event.made < 9 := agrees.event.made_lt
  change ops.count .keyAccess + 0 ≤ 4 * r.keys.length + r.key.made at key
  change ops.count .inputAccess + 0 ≤ 9 * r.events.length + r.event.made at event
  exact ⟨⟨agrees.globals, agrees.keys, agrees.events⟩, by omega, by omega⟩

end LearningOS
