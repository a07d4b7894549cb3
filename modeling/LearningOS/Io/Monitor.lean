import Mathlib.Data.List.Range
import Mathlib.Logic.Function.Basic
import Mathlib.Tactic.Linarith

namespace LearningOS

/-- What an 8-bit variable holds of a value. -/
def u8 (n : Nat) : Nat := n % 2 ^ 8

@[simp] theorem u8_of_lt {n : Nat} (bound : n < 2 ^ 8) : u8 n = n := Nat.mod_eq_of_lt bound

/-- The globals of `monitor.c`, the video memory by its cells, the bytes sent to the serial port,
the cursor registers of the display, and the cells that were stored to. -/
structure Monitor where
  videoMemory : Nat → UInt16
  cursorX : Nat
  cursorY : Nat
  serialEnabled : Bool
  serial : List UInt8
  cursorHigh : UInt8
  cursorLow : UInt8
  stores : List Nat

/-- White on black. -/
def attributeBits : UInt16 := ((0 : UInt16) <<< 12) ||| ((15 : UInt16) <<< 8)

def blankCell : UInt16 := 0x20 ||| attributeBits

def Monitor.store (m : Monitor) (i : Nat) (cell : UInt16) : Monitor :=
  { m with videoMemory := Function.update m.videoMemory i cell, stores := m.stores ++ [i] }

def updateCursor (m : Monitor) : Monitor :=
  let cursorLocation := (m.cursorY * 80 + m.cursorX) % 2 ^ 16
  { m with cursorHigh := UInt8.ofNat (cursorLocation / 256), cursorLow := UInt8.ofNat cursorLocation }

/-- The first loop of `scroll`. -/
def moveRows (m : Monitor) (n : Nat) : Monitor :=
  (List.range n).foldl (fun m i => m.store i (m.videoMemory (i + 80))) m

/-- Its second loop. -/
def clearRow (m : Monitor) (i n : Nat) : Monitor := (List.range' i n).foldl (fun m i => m.store i blankCell) m

def scroll (m : Monitor) : Monitor :=
  if m.cursorY ≥ 25 then { clearRow (moveRows m (24 * 80)) (24 * 80) 80 with cursorY := 24 } else m

/-- The loop of a tab, for the columns up to the next tab stop. -/
def tabLoop : Nat → Monitor → Monitor
  | 0, m => m
  | n + 1, m => tabLoop n { m.store (m.cursorY * 80 + m.cursorX) blankCell with cursorX := u8 (m.cursorX + 1) }

/-- The cursor one column back. -/
def stepBack (m : Monitor) : Monitor :=
  if m.cursorX > 0 then { m with cursorX := m.cursorX - 1 }
  else if m.cursorY > 0 then { m with cursorY := m.cursorY - 1, cursorX := 79 }
  else m

/-- The branches of `monitor_put` by the character; a `char` is signed. -/
def putChar (m : Monitor) (c : UInt8) : Monitor :=
  if c = 10 then { m with cursorX := 0, cursorY := u8 (m.cursorY + 1) }
  else if c = 9 then tabLoop ((m.cursorX + 4) / 4 * 4 - m.cursorX) m
  else if c = 8 then (stepBack m).store ((stepBack m).cursorY * 80 + (stepBack m).cursorX) blankCell
  else if c.toInt8 ≥ 32 then
    { m.store (m.cursorY * 80 + m.cursorX) (c.toUInt16 ||| attributeBits) with cursorX := u8 (m.cursorX + 1) }
  else m

/-- The end of a row that is full. -/
def wrapRow (m : Monitor) : Monitor :=
  if m.cursorX ≥ 80 then { m with cursorX := 0, cursorY := u8 (m.cursorY + 1) } else m

def monitorPut (m : Monitor) (c : UInt8) : Monitor :=
  let m := if m.serialEnabled then { m with serial := m.serial ++ [c] } else m
  updateCursor (scroll (wrapRow (putChar m c)))

/-- A screen of blanks with the cursor in the corner, and no stores so far. -/
structure Monitor.Cleared (m : Monitor) : Prop where
  cells : ∀ i < 2000, m.videoMemory i = 0x0F20
  cursorX : m.cursorX = 0
  cursorY : m.cursorY = 0
  stores : m.stores = []

/-- The cursor is on the screen, and so was every store. -/
structure Monitor.OnScreen (m : Monitor) : Prop where
  cursorX : m.cursorX < 80
  cursorY : m.cursorY < 25
  stores : ∀ i ∈ m.stores, i < 2000

/-- The cursor is on the screen or one row or one column behind it. -/
structure Monitor.AtEdge (m : Monitor) : Prop where
  cursorX : m.cursorX ≤ 80
  cursorY : m.cursorY ≤ 25
  corner : m.cursorX = 80 → m.cursorY < 25
  stores : ∀ i ∈ m.stores, i < 2000

section
variable {m : Monitor} {i j n : Nat}

theorem Monitor.store_cell (m : Monitor) (i : Nat) (cell : UInt16) (j : Nat) :
    (m.store i cell).videoMemory j = if j = i then cell else m.videoMemory j := Function.update_apply ..

theorem foldl_store (f : Monitor → Nat → UInt16) (is : List Nat) (m : Monitor) :
    (is.foldl (fun m i => m.store i (f m i)) m).stores = m.stores ++ is ∧
      (is.foldl (fun m i => m.store i (f m i)) m).cursorX = m.cursorX := by
  induction is generalizing m with
  | nil => exact ⟨(List.append_nil _).symm, rfl⟩
  | cons i is ih =>
    obtain ⟨stores, x⟩ := ih (m.store i (f m i))
    exact ⟨stores.trans (by simp [Monitor.store]), x⟩

/-- A cell is read before the row above it is moved there. -/
theorem moveRows_cell (m : Monitor) (n j : Nat) :
    (moveRows m n).videoMemory j = if j < n then m.videoMemory (j + 80) else m.videoMemory j := by
  induction n generalizing j with
  | zero => rfl
  | succ n ih =>
    have step : moveRows m (n + 1) = (moveRows m n).store n ((moveRows m n).videoMemory (n + 80)) := by
      rw [moveRows, List.range_succ, List.foldl_append]
      rfl
    rw [step, Monitor.store_cell]
    by_cases here : j = n
    · subst here
      rw [if_pos rfl, if_pos (Nat.lt_succ_self j), ih, if_neg (by omega)]
    · rw [if_neg here, ih]
      split_ifs
      · rfl
      · omega
      · omega
      · rfl

theorem clearRow_cell (m : Monitor) (i n j : Nat) :
    (clearRow m i n).videoMemory j = if i ≤ j ∧ j < i + n then blankCell else m.videoMemory j := by
  induction n generalizing m i with
  | zero => rw [if_neg (by omega)]; rfl
  | succ n ih =>
    have step : clearRow m i (n + 1) = clearRow (m.store i blankCell) (i + 1) n := by
      rw [clearRow, List.range'_succ, List.foldl_cons]
      rfl
    rw [step, ih, Monitor.store_cell]
    split_ifs
    · rfl
    · omega
    · rfl
    · omega
    · omega
    · rfl

/-- `scroll` behind the last row: every row moves up by one, and the last is blank. -/
theorem scroll_cell (below : 25 ≤ m.cursorY) (inside : j < 2000) :
    (scroll m).videoMemory j = if j < 24 * 80 then m.videoMemory (j + 80) else blankCell := by
  rw [scroll, if_pos below]
  dsimp only
  rw [clearRow_cell, moveRows_cell]
  split_ifs
  · omega
  · rfl
  · rfl
  · omega

theorem moveRows_rest (m : Monitor) (n : Nat) :
    (moveRows m n).stores = m.stores ++ List.range n ∧ (moveRows m n).cursorX = m.cursorX :=
  foldl_store (fun m i => m.videoMemory (i + 80)) (List.range n) m

theorem clearRow_rest (m : Monitor) (i n : Nat) :
    (clearRow m i n).stores = m.stores ++ List.range' i n ∧ (clearRow m i n).cursorX = m.cursorX :=
  foldl_store (fun _ _ => blankCell) (List.range' i n) m

theorem scroll_rest (below : 25 ≤ m.cursorY) :
    (∀ i ∈ (scroll m).stores, i ∈ m.stores ∨ i < 2000) ∧ (scroll m).cursorX = m.cursorX ∧ (scroll m).cursorY = 24 := by
  obtain ⟨moved, x⟩ := moveRows_rest m (24 * 80)
  obtain ⟨cleared, x'⟩ := clearRow_rest (moveRows m (24 * 80)) (24 * 80) 80
  rw [scroll, if_pos below]
  dsimp only
  rw [cleared, moved, x', x]
  refine ⟨fun i member => ?_, rfl, rfl⟩
  rw [List.append_assoc, List.mem_append, List.mem_append, List.mem_range, List.mem_range'_1] at member
  exact member.imp_right fun cell => by omega

theorem Monitor.OnScreen.store (on : m.OnScreen) (cell : UInt16) :
    ∀ i ∈ (m.store (m.cursorY * 80 + m.cursorX) cell).stores, i < 2000 := by
  have x := on.cursorX
  have y := on.cursorY
  intro i member
  rcases List.mem_append.mp member with before | here
  · exact on.stores i before
  · rw [List.mem_singleton.mp here]
    omega

theorem Monitor.OnScreen.edge (on : m.OnScreen) : m.AtEdge :=
  ⟨Nat.le_of_lt on.cursorX, Nat.le_of_lt on.cursorY, fun _ => on.cursorY, on.stores⟩

/-- Up to the next tab stop the cursor stays in its row. -/
theorem tabLoop_edge (on : m.OnScreen) (fits : m.cursorX + n ≤ 80) : (tabLoop n m).AtEdge := by
  induction n generalizing m with
  | zero => exact on.edge
  | succ n ih =>
    have x := on.cursorX
    have word : u8 (m.cursorX + 1) = m.cursorX + 1 := u8_of_lt (by omega)
    rw [tabLoop, word]
    by_cases last : n = 0
    · subst last
      exact ⟨x, Nat.le_of_lt on.cursorY, fun _ => on.cursorY, on.store blankCell⟩
    · exact ih ⟨by dsimp only; omega, on.cursorY, on.store blankCell⟩ (by dsimp only; omega)

theorem stepBack_onScreen (on : m.OnScreen) : (stepBack m).OnScreen := by
  have x := on.cursorX
  have y := on.cursorY
  rw [stepBack]
  split
  · exact ⟨by dsimp only; omega, y, on.stores⟩
  · split
    · exact ⟨by dsimp only; omega, by dsimp only; omega, on.stores⟩
    · exact on

theorem putChar_edge (on : m.OnScreen) (c : UInt8) : (putChar m c).AtEdge := by
  have x := on.cursorX
  have y := on.cursorY
  rw [putChar]
  by_cases newline : c = 10
  · rw [if_pos newline, u8_of_lt (by omega)]
    exact ⟨Nat.zero_le _, y, nofun, on.stores⟩
  rw [if_neg newline]
  by_cases tab : c = 9
  · rw [if_pos tab]
    exact tabLoop_edge on (by omega)
  rw [if_neg tab]
  by_cases back : c = 8
  · have behind := stepBack_onScreen on
    rw [if_pos back]
    exact ⟨Nat.le_of_lt behind.cursorX, Nat.le_of_lt behind.cursorY, fun _ => behind.cursorY, behind.store blankCell⟩
  rw [if_neg back]
  by_cases plain : c.toInt8 ≥ 32
  · rw [if_pos plain, u8_of_lt (by omega)]
    exact ⟨x, Nat.le_of_lt y, fun _ => y, on.store (c.toUInt16 ||| attributeBits)⟩
  · rw [if_neg plain]
    exact on.edge

theorem wrapRow_edge (edge : m.AtEdge) : (wrapRow m).AtEdge ∧ (wrapRow m).cursorX < 80 := by
  have x := edge.cursorX
  have y := edge.cursorY
  rw [wrapRow]
  by_cases full : m.cursorX ≥ 80
  · have corner := edge.corner (by omega)
    rw [if_pos full, u8_of_lt (by omega)]
    exact ⟨⟨Nat.zero_le _, corner, nofun, edge.stores⟩, by dsimp only; omega⟩
  · rw [if_neg full]
    exact ⟨edge, Nat.lt_of_not_le full⟩

theorem scroll_onScreen (edge : m.AtEdge) (column : m.cursorX < 80) : (scroll m).OnScreen := by
  by_cases below : 25 ≤ m.cursorY
  · obtain ⟨stores, x, y⟩ := scroll_rest below
    refine ⟨x ▸ column, by rw [y]; decide, fun i member => ?_⟩
    exact (stores i member).elim (edge.stores i) id
  · rw [scroll, if_neg below]
    exact ⟨column, Nat.lt_of_not_le below, edge.stores⟩

theorem Monitor.OnScreen.heard (on : m.OnScreen) (c : UInt8) :
    (if m.serialEnabled then { m with serial := m.serial ++ [c] } else m).OnScreen := by
  split
  · exact ⟨on.cursorX, on.cursorY, on.stores⟩
  · exact on

/-- A character leaves the cursor on the screen and stores nothing elsewhere. -/
theorem monitorPut_onScreen (on : m.OnScreen) (c : UInt8) : (monitorPut m c).OnScreen := by
  obtain ⟨edge, column⟩ := wrapRow_edge (putChar_edge (on.heard c) c)
  obtain ⟨x, y, stores⟩ := scroll_onScreen edge column
  exact ⟨x, y, stores⟩

theorem monitor_onScreen (on : m.OnScreen) (text : List UInt8) : (text.foldl monitorPut m).OnScreen := by
  induction text generalizing m with
  | nil => exact on
  | cons c text ih => exact ih (monitorPut_onScreen on c)

theorem Monitor.Cleared.onScreen (cleared : m.Cleared) : m.OnScreen := by
  refine ⟨by rw [cleared.cursorX]; decide, by rw [cleared.cursorY]; decide, fun i member => ?_⟩
  rw [cleared.stores] at member
  cases member

end

end LearningOS
