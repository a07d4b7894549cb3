import LearningOS.Store.Ring
import Mathlib.Tactic.Linarith

namespace LearningOS
open RingBuffer

/-- The globals of `ipc.c`. -/
abbrev Ipc := Ring 32 UInt32

def ipcInit (q : Ipc) : Ipc := { q with head := 0, tail := 0 }

/-- `ipc_send`: the queue and the result. -/
def ipcSend (q : Ipc) (msg : UInt32) : Ipc × Int := if q.Full then (q, -1) else (q.put msg, 0)

/-- `ipc_recv`; `msg` says that its pointer is not null. The last part is the
message it stores there. -/
def ipcRecv (q : Ipc) (msg : Bool) : Ipc × Int × Option UInt32 :=
  if msg = false ∨ q.head = q.tail then (q, -1, none) else (q.drop, 0, some q.front)

/-- A `struct input_event`. -/
structure InputEvent where
  type : UInt8
  flags : UInt8
  a : Int16
  b : Int16
deriving DecidableEq

/-- The globals of `input.c`. -/
abbrev Input := Ring 64 InputEvent

def inputInit (q : Input) : Input := { q with head := 0, tail := 0 }

/-- `input_push` drops the event if there is no room. -/
def inputPush (q : Input) (ev : InputEvent) : Input := if q.Full then q else q.put ev

def inputPushKey (q : Input) (c : Int8) : Input := inputPush q ⟨1, 0, c.toInt16, 0⟩

def inputPushMouse (q : Input) (dx dy : Int8) (buttons : UInt8) : Input :=
  inputPush q ⟨2, buttons, dx.toInt16, dy.toInt16⟩

/-- `input_pop`: the queue, the result and the event it stores. -/
def inputPop (q : Input) (out : Bool) : Input × Int × Option InputEvent :=
  if out = false ∨ q.head = q.tail then (q, -1, none) else (q.drop, 0, some q.front)

/-- The runs of the message queue, with the messages that were sent and those
that were received. -/
inductive IpcReach : Ipc → List UInt32 → List UInt32 → Prop
  | init (q : Ipc) : IpcReach (ipcInit q) [] []
  | send {q sent received} (msg : UInt32) : IpcReach q sent received →
      IpcReach (ipcSend q msg).1 (if (ipcSend q msg).2 = 0 then sent ++ [msg] else sent) received
  | recv {q sent received} (msg : Bool) : IpcReach q sent received →
      IpcReach (ipcRecv q msg).1 sent (received ++ (ipcRecv q msg).2.2.toList)

/-- A call of `input_push_key` or of `input_push_mouse`. -/
inductive InputCall
  | key (c : Int8)
  | mouse (dx dy : Int8) (buttons : UInt8)

def InputCall.run (q : Input) : InputCall → Input
  | .key c => inputPushKey q c
  | .mouse dx dy buttons => inputPushMouse q dx dy buttons

/-- The values of an event, as numbers: its type, its flags and the two values. -/
structure InputValues where
  type : Nat
  flags : Nat
  a : Int
  b : Int

/-- What a call pushes. -/
def InputCall.values : InputCall → InputValues
  | .key c => ⟨1, 0, c.toInt, 0⟩
  | .mouse dx dy buttons => ⟨2, buttons.toNat, dx.toInt, dy.toInt⟩

def InputEvent.values (ev : InputEvent) : InputValues := ⟨ev.type.toNat, ev.flags.toNat, ev.a.toInt, ev.b.toInt⟩

/-- The runs of the event queue, with the calls whose event was stored, which
moves the head, and the events that were popped. -/
inductive InputReach : Input → List InputCall → List InputEvent → Prop
  | init (q : Input) : InputReach (inputInit q) [] []
  | push {q pushed popped} (call : InputCall) : InputReach q pushed popped →
      InputReach (call.run q) (if (call.run q).head = q.head then pushed else pushed ++ [call]) popped
  | pop {q pushed popped} (out : Bool) : InputReach q pushed popped →
      InputReach (inputPop q out).1 pushed (popped ++ (inputPop q out).2.2.toList)

theorem IpcReach.contents {q : Ipc} {sent received : List UInt32} (reach : IpcReach q sent received) :
    sent = received ++ q.contents := by
  induction reach with
  | init q => exact (((ipcInit q).empty_iff).mp rfl).symm
  | @send q sent received msg _ ih =>
    unfold ipcSend
    split
    · exact ih
    · rename_i room
      change sent ++ [msg] = received ++ (q.put msg).contents
      rw [Ring.contents_put room, ih, List.append_assoc]
  | @recv q sent received msg _ ih =>
    unfold ipcRecv
    split
    · rw [Option.toList_none, List.append_nil]
      exact ih
    · rename_i some
      rw [ih, Ring.contents_drop (not_or.mp some).2, List.append_assoc]
      rfl

/-- The event a call builds carries the values it was called with. -/
theorem InputCall.run_eq (q : Input) (call : InputCall) :
    ∃ ev : InputEvent, call.run q = inputPush q ev ∧ ev.values = call.values := by
  cases call with
  | key c => exact ⟨_, rfl, by simp [InputEvent.values, InputCall.values]⟩
  | mouse dx dy buttons => exact ⟨_, rfl, by simp [InputEvent.values, InputCall.values]⟩

theorem InputReach.contents {q : Input} {pushed : List InputCall} {popped : List InputEvent}
    (reach : InputReach q pushed popped) :
    pushed.map InputCall.values = (popped ++ q.contents).map InputEvent.values := by
  induction reach with
  | init q =>
    rw [((inputInit q).empty_iff).mp rfl]
    rfl
  | @push q pushed popped call _ ih =>
    obtain ⟨ev, run, same⟩ := call.run_eq q
    rw [run, inputPush]
    split
    · rw [if_pos rfl]
      exact ih
    · rename_i room
      have moved : (q.put ev).head ≠ q.head := Ring.put_head_ne (by decide) ev
      rw [if_neg moved, Ring.contents_put room, List.map_append, ih, ← List.append_assoc, List.map_append]
      simp [same]
  | @pop q pushed popped out _ ih =>
    unfold inputPop
    split
    · rw [Option.toList_none, List.append_nil]
      exact ih
    · rename_i some
      rw [ih, Ring.contents_drop (not_or.mp some).2, List.append_assoc]
      rfl

/-- The message queue and the event queue are bounded queues: over every run the
elements that came out are the first ones that went in, with the rest pending, an
element is refused exactly if 31 messages or 63 events are pending, nothing comes
out exactly if nothing is pending, and a refused call changes nothing. -/
theorem ipc_and_input_fifo {q : Ipc} {sent received : List UInt32} (messages : IpcReach q sent received)
    {e : Input} {pushed : List InputCall} {popped : List InputEvent} (events : InputReach e pushed popped) :
    (sent = received ++ q.contents ∧
      (∀ msg, ((ipcSend q msg).2 = -1 ↔ sent.length = received.length + 31) ∧
        ((ipcSend q msg).2 = -1 → (ipcSend q msg).1 = q) ∧ ((ipcSend q msg).2 = -1 ∨ (ipcSend q msg).2 = 0)) ∧
      ((ipcRecv q true).2.1 = -1 ↔ sent.length = received.length) ∧
      ∀ msg, ((ipcRecv q msg).2.1 = -1 ∧ (ipcRecv q msg).1 = q ∧ (ipcRecv q msg).2.2 = none) ∨
        ((ipcRecv q msg).2.1 = 0 ∧ (ipcRecv q msg).2.2 = q.contents.head?)) ∧
    pushed.map InputCall.values = (popped ++ e.contents).map InputEvent.values ∧
      (∀ call, ((InputCall.run e call).head = e.head ↔ pushed.length = popped.length + 63) ∧
        ((InputCall.run e call).head = e.head → InputCall.run e call = e)) ∧
      ((inputPop e true).2.1 = -1 ↔ pushed.length = popped.length) ∧
      ∀ out, ((inputPop e out).2.1 = -1 ∧ (inputPop e out).1 = e ∧ (inputPop e out).2.2 = none) ∨
        ((inputPop e out).2.1 = 0 ∧ (inputPop e out).2.2 = e.contents.head?) := by
  have ipc := messages.contents
  have input := events.contents
  have sentCount : sent.length = received.length + q.contents.length := by rw [ipc, List.length_append]
  have pushedCount : (popped ++ e.contents).length = popped.length + e.contents.length := List.length_append
  have ipcPending := q.pending sentCount
  have inputPending := e.pending pushedCount
  have counts : pushed.length = (popped ++ e.contents).length := by
    simpa only [List.length_map] using congrArg List.length input
  rw [← counts] at inputPending
  refine ⟨⟨ipc, fun msg => ?_, ?_, fun msg => ?_⟩, input, fun call => ?_, ?_, fun out => ?_⟩
  · rw [← ipcPending.1, ipcSend]
    by_cases full : q.Full
    · simp [full]
    · simp [full]
  · rw [← ipcPending.2, ipcRecv]
    by_cases empty : q.head = q.tail
    · simp [empty]
    · simp [empty]
  · unfold ipcRecv
    split
    · exact Or.inl ⟨rfl, rfl, rfl⟩
    · rename_i some
      rw [Ring.contents_drop (not_or.mp some).2]
      exact Or.inr ⟨rfl, rfl⟩
  · obtain ⟨ev, run, _⟩ := call.run_eq e
    rw [← inputPending.1, run, inputPush]
    split
    · rename_i full
      exact ⟨iff_of_true rfl full, fun _ => rfl⟩
    · rename_i room
      have moved : (e.put ev).head ≠ e.head := Ring.put_head_ne (by decide) ev
      exact ⟨iff_of_false moved room, fun same => absurd same moved⟩
  · rw [← inputPending.2, inputPop]
    by_cases empty : e.head = e.tail
    · simp [empty]
    · simp [empty]
  · unfold inputPop
    split
    · exact Or.inl ⟨rfl, rfl, rfl⟩
    · rename_i some
      rw [Ring.contents_drop (not_or.mp some).2]
      exact Or.inr ⟨rfl, rfl⟩

theorem ipc_and_input_fifo_second_message :
    ∃ q e, IpcReach q [7, 9] [7] ∧ InputReach e [.key (-1), .mouse 3 4 1] [⟨1, 0, -1, 0⟩] ∧ q.contents = [9] ∧
      (ipcRecv q true).2.1 ≠ -1 ∧ e.contents.map InputEvent.values = [⟨2, 1, 3, 4⟩] := by
  have messages : IpcReach _ [7, 9] [7] := .recv true (.send 9 (.send 7 (.init ⟨fun _ => 0, 5, 5⟩)))
  have events : InputReach _ [.key (-1), .mouse 3 4 1] [⟨1, 0, -1, 0⟩] :=
    .pop true (.push (.mouse 3 4 1) (.push (.key (-1)) (.init ⟨fun _ => ⟨0, 0, 0, 0⟩, 5, 5⟩)))
  refine ⟨_, _, messages, events, ?_, fun failed => ?_, ?_⟩
  · exact (List.cons.inj (ipc_and_input_fifo messages events).1.1).2.symm
  · exact absurd ((ipc_and_input_fifo messages events).1.2.2.1.mp failed) (by decide)
  · exact (List.cons.inj (ipc_and_input_fifo messages events).2.1).2.symm

end LearningOS
