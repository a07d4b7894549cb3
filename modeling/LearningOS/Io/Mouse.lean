import LearningOS.Io.Queues

namespace LearningOS
open RingBuffer

/-- The globals of `mouse.c`, and the queue its events go to. -/
structure Mouse where
  cycle : UInt8
  bytes : Fin 3 → Int8
  packetCount : UInt32
  input : Input

/-- What a call of `mouse_handler` leaves: the globals, the call of `input_push_mouse`, and the
numbers `kprintf` prints. -/
structure MouseHandled where
  mouse : Mouse
  call : Option InputCall
  report : Option (Int × Int × Int)

/-- `mouse_handler`, by what it reads from the status port and from the data port. -/
def mouseHandler (m : Mouse) (status data : UInt8) : MouseHandled :=
  if status &&& 1 = 0 then ⟨m, none, none⟩
  else if m.cycle = 0 then
    if data.toInt8 &&& 0x08 = 0 then ⟨m, none, none⟩
    else ⟨{ m with bytes := Function.update m.bytes 0 data.toInt8, cycle := 1 }, none, none⟩
  else if m.cycle = 1 then ⟨{ m with bytes := Function.update m.bytes 1 data.toInt8, cycle := 2 }, none, none⟩
  else if m.cycle = 2 then
    let bytes := Function.update m.bytes 2 data.toInt8
    let packetCount := m.packetCount + 1
    let call := InputCall.mouse (bytes 1) (bytes 2) (bytes 0 &&& 0x07).toUInt8
    { mouse := { cycle := 0, bytes, packetCount, input := call.run m.input }
      call := some call
      report := if packetCount % 50 = 0 then some ((bytes 0).toInt, (bytes 1).toInt, (bytes 2).toInt) else none }
  else ⟨m, none, none⟩

/-- The handler for each of a number of interrupts, with the calls of `input_push_mouse`. -/
def mouseRun (m : Mouse) : List (UInt8 × UInt8) → Mouse × List InputCall
  | [] => (m, [])
  | (status, data) :: irqs =>
    let handled := mouseHandler m status data
    let (last, calls) := mouseRun handled.mouse irqs
    (last, handled.call.toList ++ calls)

/-- The bytes that are there when an interrupt comes. -/
def delivered (irqs : List (UInt8 × UInt8)) : List UInt8 := (irqs.filter fun irq => irq.1 &&& 1 ≠ 0).map Prod.snd

/-- What a packet of three bytes says: its buttons, and its movement in nine bits. -/
structure Packet where
  buttons : Nat
  dx : Int
  dy : Int
  few : buttons < 8
  dxRange : -256 ≤ dx ∧ dx < 256
  dyRange : -256 ≤ dy ∧ dy < 256

/-- The low eight bits of a movement. -/
def lowByte (d : Int) : UInt8 := UInt8.ofNat (d % 256).toNat

namespace Packet

def firstByte (p : Packet) : UInt8 :=
  UInt8.ofNat (p.buttons + 8 + (if p.dx < 0 then 16 else 0) + if p.dy < 0 then 32 else 0)

def bytes (p : Packet) : List UInt8 := [p.firstByte, lowByte p.dx, lowByte p.dy]

def values (p : Packet) : InputValues := ⟨2, p.buttons, p.dx, p.dy⟩

/-- The movement fits eight bits. -/
def Small (p : Packet) : Prop := (-128 ≤ p.dx ∧ p.dx < 128) ∧ -128 ≤ p.dy ∧ p.dy < 128

/-- The call the handler makes for a packet. -/
def call (p : Packet) : InputCall :=
  .mouse (lowByte p.dx).toInt8 (lowByte p.dy).toInt8 (p.firstByte.toInt8 &&& 0x07).toUInt8

end Packet

/-- Packets byte by byte, with bytes between them that lack bit 3. -/
inductive PacketStream : List Packet → List UInt8 → Prop
  | done : PacketStream [] []
  | noise {packets stream} (b : UInt8) : b &&& 8 = 0 → PacketStream packets stream → PacketStream packets (b :: stream)
  | packet {packets stream} (p : Packet) : PacketStream packets stream →
      PacketStream (p :: packets) (p.bytes ++ stream)

section
variable {m : Mouse} {packets : List Packet} {stream : List UInt8} {irqs : List (UInt8 × UInt8)}

theorem mouseHandler_status (m : Mouse) (status data : UInt8) :
    mouseHandler m status data = if status &&& 1 = 0 then ⟨m, none, none⟩ else mouseHandler m 1 data := by
  by_cases none : status &&& 1 = 0
  · rw [mouseHandler, if_pos none, if_pos none]
  · rw [mouseHandler, if_neg none, if_neg none, mouseHandler, if_neg (by decide : ¬ (1 : UInt8) &&& 1 = 0)]

/-- The queue of the events changes by the call alone. -/
theorem mouseHandler_input (m : Mouse) (status data : UInt8) :
    (mouseHandler m status data).mouse.input = (mouseHandler m status data).call.toList.foldl InputCall.run m.input := by
  unfold mouseHandler
  repeat' split
  all_goals rfl

/-- The queue gets the events of a run's calls, in their order. -/
theorem mouseRun_input (m : Mouse) (irqs : List (UInt8 × UInt8)) :
    (mouseRun m irqs).1.input = (mouseRun m irqs).2.foldl InputCall.run m.input := by
  induction irqs generalizing m with
  | nil => rfl
  | cons irq irqs ih =>
    rw [mouseRun, List.foldl_append, ← mouseHandler_input]
    exact ih _

/-- Interrupts without a byte change nothing. -/
theorem mouseRun_delivered (m : Mouse) (irqs : List (UInt8 × UInt8)) :
    mouseRun m irqs = mouseRun m ((delivered irqs).map fun b => (1, b)) := by
  induction irqs generalizing m with
  | nil => rfl
  | cons irq irqs ih =>
    obtain ⟨status, data⟩ := irq
    rw [mouseRun, mouseHandler_status, delivered, List.filter_cons]
    by_cases none : status &&& 1 = 0
    · simp only [none, if_true, ne_eq, not_true_eq_false, decide_false, Bool.false_eq_true, if_false,
        Option.toList_none, List.nil_append]
      exact ih m
    · simp only [none, if_false, ne_eq, not_false_eq_true, decide_true, if_true, List.map_cons, mouseRun]
      rw [ih, delivered]

theorem firstByte_bits (p : Packet) :
    p.firstByte.toInt8 &&& 0x08 ≠ 0 ∧ (p.firstByte.toInt8 &&& 0x07).toUInt8.toNat = p.buttons := by
  have all : ∀ b : Fin 8, ∀ left down : Bool,
      (UInt8.ofNat (b.val + 8 + (if left then 16 else 0) + if down then 32 else 0)).toInt8 &&& 0x08 ≠ 0 ∧
        ((UInt8.ofNat (b.val + 8 + (if left then 16 else 0) + if down then 32 else 0)).toInt8 &&& 0x07).toUInt8.toNat =
          b.val := by decide +kernel
  have here := all ⟨p.buttons, p.few⟩ (decide (p.dx < 0)) (decide (p.dy < 0))
  simp only [decide_eq_true_eq] at here
  exact here

theorem noise_bits {b : UInt8} (noise : b &&& 8 = 0) : b.toInt8 &&& 0x08 = 0 := by
  have all : ∀ n : Fin 256, UInt8.ofFin n &&& 8 = 0 → (UInt8.ofFin n).toInt8 &&& 0x08 = 0 := by decide +kernel
  exact all b.toFin noise

theorem mouseHandler_first (cycle : m.cycle = 0) {b : UInt8} (begins : b.toInt8 &&& 0x08 ≠ 0) :
    mouseHandler m 1 b = ⟨{ m with bytes := Function.update m.bytes 0 b.toInt8, cycle := 1 }, none, none⟩ := by
  rw [mouseHandler, if_neg (by decide), if_pos cycle, if_neg begins]

theorem mouseHandler_second (cycle : m.cycle = 1) (b : UInt8) :
    mouseHandler m 1 b = ⟨{ m with bytes := Function.update m.bytes 1 b.toInt8, cycle := 2 }, none, none⟩ := by
  rw [mouseHandler, if_neg (by decide), cycle, if_neg (by decide), if_pos rfl]

/-- The third byte completes a packet. -/
theorem mouseHandler_third (cycle : m.cycle = 2) (b : UInt8) :
    (mouseHandler m 1 b).mouse.cycle = 0 ∧
      (mouseHandler m 1 b).call = some (.mouse (m.bytes 1) b.toInt8 (m.bytes 0 &&& 0x07).toUInt8) := by
  rw [mouseHandler, if_neg (by decide), cycle, if_neg (by decide), if_neg (by decide), if_pos rfl]
  exact ⟨rfl, rfl⟩

/-- What a run passes on of a stream that begins with a packet. -/
theorem mouseRun_packet (start : m.cycle = 0) (p : Packet) (rest : List (UInt8 × UInt8)) :
    ∃ m' : Mouse, m'.cycle = 0 ∧ (mouseRun m (p.bytes.map (fun b => (1, b)) ++ rest)).2 =
      p.call :: (mouseRun m' rest).2 := by
  have first := mouseHandler_first start (firstByte_bits p).1
  have second := mouseHandler_second
    (m := { m with bytes := Function.update m.bytes 0 p.firstByte.toInt8, cycle := 1 }) rfl (lowByte p.dx)
  obtain ⟨again, call⟩ := mouseHandler_third
    (m := { m with
      bytes := Function.update (Function.update m.bytes 0 p.firstByte.toInt8) 1 (lowByte p.dx).toInt8, cycle := 2 })
    rfl (lowByte p.dy)
  refine ⟨_, again, ?_⟩
  simp only [Packet.bytes, List.map_cons, List.map_nil, List.cons_append, List.nil_append, mouseRun, first, second,
    call]
  rfl

theorem mouseRun_stream (sends : PacketStream packets stream) (start : m.cycle = 0) :
    (mouseRun m (stream.map fun b => (1, b))).2 = packets.map Packet.call := by
  induction sends generalizing m with
  | done => rfl
  | noise b lacks _ ih =>
    have skipped : mouseHandler m 1 b = ⟨m, none, none⟩ := by
      rw [mouseHandler, if_neg (by decide), if_pos start, if_pos (noise_bits lacks)]
    rw [List.map_cons, mouseRun, skipped]
    exact ih start
  | packet p _ ih =>
    rw [List.map_append]
    obtain ⟨m', again, calls⟩ := mouseRun_packet start p _
    rw [calls, ih again, List.map_cons]

theorem lowByte_toInt (d : Int) : (lowByte d).toInt8.toInt = d.bmod 256 := by
  have value : (lowByte d).toInt8.toInt = ((lowByte d).toNat : Int).bmod 256 := BitVec.toInt_eq_toNat_bmod _
  have byte : (lowByte d).toNat = (d % 256).toNat := by
    rw [lowByte, UInt8.toNat_ofNat']
    omega
  rw [value, byte, Int.toNat_of_nonneg (by omega)]
  exact Int.emod_bmod d 256

theorem bmod_eq_iff {d : Int} (range : -256 ≤ d ∧ d < 256) : d.bmod 256 = d ↔ -128 ≤ d ∧ d < 128 := by
  rw [Int.bmod_def]
  split <;> omega

theorem Packet.call_values_iff (p : Packet) : p.call.values = p.values ↔ p.Small := by
  rw [Packet.call, Packet.values, InputCall.values, (firstByte_bits p).2, lowByte_toInt, lowByte_toInt,
    Packet.Small, ← bmod_eq_iff p.dxRange, ← bmod_eq_iff p.dyRange]
  simp

/-- The queue gets the events that are passed on, and no others; for a stream of packets these carry
what the packets say exactly if every movement fits eight bits; what is between the packets is
skipped. -/
theorem mouse_passes_packets_iff (start : m.cycle = 0) (sends : PacketStream packets (delivered irqs)) :
    (mouseRun m irqs).1.input = (mouseRun m irqs).2.foldl InputCall.run m.input ∧
      ((mouseRun m irqs).2.map InputCall.values = packets.map Packet.values ↔ ∀ p ∈ packets, p.Small) := by
  refine ⟨mouseRun_input m irqs, ?_⟩
  rw [mouseRun_delivered, mouseRun_stream sends start, List.map_map, List.map_inj_left]
  exact forall₂_congr fun p _ => p.call_values_iff

end

/-- The globals of `mouse.c` before the first interrupt, with a queue after `input_init`. -/
def mouseStart : Mouse :=
  ⟨0, fun _ => 0, 0, inputInit ⟨fun _ => ⟨0, 0, 0, 0⟩, Fin.last 63, Fin.last 63⟩⟩

/-- No buttons, and 200 steps to the right. -/
def rightPacket : Packet := ⟨0, 200, 0, by decide, by decide, by decide⟩

theorem rightPacket_stream : PacketStream [rightPacket] (delivered [(1, 0), (1, 0x08), (0, 0), (1, 200), (1, 0)]) :=
  .noise 0 (by decide) (.packet rightPacket .done)

/-- 200 steps to the right are passed on as 56 steps to the left. -/
theorem mouse_turns_around :
    ¬ ∀ packets irqs, PacketStream packets (delivered irqs) →
      (mouseRun mouseStart irqs).2.map InputCall.values = packets.map Packet.values := by
  intro claimed
  have dx := congrArg (List.map InputValues.a) (claimed _ _ rightPacket_stream)
  revert dx
  decide +kernel

theorem mouse_passes_packets_iff_right :
    (mouseRun mouseStart [(1, 0), (1, 0x08), (0, 0), (1, 200), (1, 0)]).2.map InputCall.values =
      [rightPacket].map Packet.values ↔ ∀ p ∈ [rightPacket], p.Small :=
  (mouse_passes_packets_iff rfl rightPacket_stream).2

end LearningOS
