import LearningOS.Io.Monitor
import LearningOS.Store.Page

namespace LearningOS

/-- A character with its attribute, or a blank. -/
def cellOf : Option UInt8 → UInt16
  | some c => UInt16.ofNat (0x0F00 + c.toNat)
  | none => 0x0F20

/-- A text in rows of 80 columns. -/
def textPage (text : List UInt8) : Page UInt8 := Page.layout 80 (· = 10) text

/-- The screen shows the last 25 rows of a page, and the cursor is where the text goes on. -/
structure Shows (m : Monitor) (p : Page UInt8) : Prop where
  cells : ∀ y x, y < 25 → x < 80 → m.videoMemory (80 * y + x) = cellOf (p.at? 25 y x)
  cursorX : m.cursorX = p.row.length
  cursorY : m.cursorY = p.line 25

/-- The display is told where the cursor is. -/
def Monitor.CursorShown (m : Monitor) : Prop :=
  256 * m.cursorHigh.toNat + m.cursorLow.toNat = 80 * m.cursorY + m.cursorX

section
variable {m : Monitor} {p : Page UInt8} {c : UInt8}

theorem cellOf_char (c : UInt8) : c.toUInt16 ||| attributeBits = cellOf (some c) := by
  have all : ∀ n : Fin 256, (UInt8.ofFin n).toUInt16 ||| attributeBits = cellOf (some (UInt8.ofFin n)) := by
    decide +kernel
  exact all c.toFin

theorem printable_char (lower : 32 ≤ c) (upper : c < 128) : c.toInt8 ≥ 32 ∧ c ≠ 10 ∧ c ≠ 9 ∧ c ≠ 8 := by
  have all : ∀ n : Fin 256, 32 ≤ UInt8.ofFin n → UInt8.ofFin n < 128 →
      (UInt8.ofFin n).toInt8 ≥ 32 ∧ UInt8.ofFin n ≠ 10 ∧ UInt8.ofFin n ≠ 9 ∧ UInt8.ofFin n ≠ 8 := by decide +kernel
  exact all c.toFin lower upper

theorem Shows.push (shown : Shows m p) (room : p.row.length < 80) (c : UInt8) :
    Shows { m.store (m.cursorY * 80 + m.cursorX) (cellOf (some c)) with cursorX := m.cursorX + 1 } (p.push c) := by
  have y := p.line_lt (show 0 < 25 by decide)
  refine ⟨fun y x lower column => ?_, ?_, ?_⟩
  · have here : 80 * y + x = m.cursorY * 80 + m.cursorX ↔ y = p.line 25 ∧ x = p.row.length := by
      rw [shown.cursorX, shown.cursorY]
      omega
    dsimp only
    rw [Monitor.store_cell, Page.at?_push (by decide), shown.cells y x lower column]
    by_cases cursor : y = p.line 25 ∧ x = p.row.length
    · rw [if_pos cursor, if_pos (here.mpr cursor)]
    · rw [if_neg cursor, if_neg (fun same => cursor (here.mp same))]
  · simp [Page.push, shown.cursorX]
  · exact shown.cursorY.trans (p.line_push c).symm

/-- A new row: on the last line of the screen the others move up. -/
theorem Shows.newRow (cells : ∀ y x, y < 25 → x < 80 → m.videoMemory (80 * y + x) = cellOf (p.at? 25 y x))
    (line : m.cursorY = p.line 25) : Shows (scroll { m with cursorX := 0, cursorY := m.cursorY + 1 }) p.newRow := by
  have some := p.rows_length
  have next : p.newRow.line 25 = _ := Page.line_newRow (by decide)
  by_cases room : p.rows.length < 25
  · have onScreen : m.cursorY + 1 < 25 := by
      rw [line, Page.line]
      omega
    rw [scroll, if_neg (Nat.not_le.mpr onScreen)]
    refine ⟨fun y x lower column => ?_, rfl, ?_⟩
    · rw [Page.at?_newRow_of_lt room]
      exact cells y x lower column
    · rw [next, if_pos room, ← line]
  · have last : m.cursorY = 24 := by
      rw [line, Page.line]
      omega
    have below : 25 ≤ m.cursorY + 1 := by omega
    obtain ⟨_, x, y⟩ := scroll_rest (m := { m with cursorX := 0, cursorY := m.cursorY + 1 }) below
    refine ⟨fun y x lower column => ?_, x, ?_⟩
    · rw [scroll_cell (m := { m with cursorX := 0, cursorY := m.cursorY + 1 }) below (by omega),
        Page.at?_newRow_of_le (Nat.le_of_not_lt room)]
      by_cases above : y < 24
      · rw [if_pos (by omega), show 80 * y + x + 80 = 80 * (y + 1) + x by omega]
        exact cells (y + 1) x (by omega) column
      · rw [if_neg (by omega), Page.at?_below (by omega) (Nat.le_of_not_lt room)]
        rfl
    · rw [y, next, if_neg room, ← line, last]

theorem Shows.wrapRow_newRow (shown : Shows m p) (full : 80 ≤ p.row.length) : Shows (scroll (wrapRow m)) p.newRow := by
  have y := p.line_lt (show 0 < 25 by decide)
  have x := shown.cursorX
  have line := shown.cursorY
  rw [wrapRow, if_pos (by omega), u8_of_lt (by omega)]
  exact Shows.newRow shown.cells line

theorem Shows.wrapRow_same (shown : Shows m p) (room : p.row.length < 80) : Shows (scroll (wrapRow m)) p := by
  have y := p.line_lt (show 0 < 25 by decide)
  have x := shown.cursorX
  have line := shown.cursorY
  rw [wrapRow, if_neg (by omega), scroll, if_neg (by omega)]
  exact shown

/-- A printable character or a newline is shown where the page has it. -/
theorem Shows.put (shown : Shows m p) (room : p.row.length < 80) (printable : c = 10 ∨ 32 ≤ c ∧ c < 128) :
    Shows (scroll (wrapRow (putChar m c))) (p.put 80 (· = 10) c) := by
  have y := p.line_lt (show 0 < 25 by decide)
  have x := shown.cursorX
  have line := shown.cursorY
  rw [Page.put, putChar]
  rcases printable with rfl | ⟨lower, upper⟩
  · rw [if_pos rfl, if_pos (decide_eq_true rfl), u8_of_lt (by omega), wrapRow,
      if_neg (Nat.not_le.mpr (by decide : 0 < 80))]
    exact Shows.newRow shown.cells line
  · obtain ⟨plain, newline, tab, back⟩ := printable_char lower upper
    have pushed := shown.push room c
    have count : (p.push c).row.length = p.row.length + 1 := by simp [Page.push]
    rw [if_neg newline, if_neg tab, if_neg back, if_pos plain, if_neg (by simpa using newline), u8_of_lt (by omega),
      cellOf_char]
    by_cases more : p.row.length + 1 < 80
    · rw [if_pos more]
      exact pushed.wrapRow_same (by omega)
    · rw [if_neg more]
      exact pushed.wrapRow_newRow (by omega)

theorem Shows.next (shown : Shows m p) (room : p.row.length < 80) (printable : c = 10 ∨ 32 ≤ c ∧ c < 128) :
    Shows (monitorPut m c) (p.put 80 (· = 10) c) := by
  have heard : Shows (if m.serialEnabled then { m with serial := m.serial ++ [c] } else m) p := by
    split
    · exact ⟨shown.cells, shown.cursorX, shown.cursorY⟩
    · exact shown
  obtain ⟨cells, x, y⟩ := heard.put room printable
  exact ⟨cells, x, y⟩

theorem updateCursor_shown (on : m.OnScreen) : (updateCursor m).CursorShown := by
  have x := on.cursorX
  have y := on.cursorY
  unfold updateCursor Monitor.CursorShown
  dsimp only
  rw [UInt8.toNat_ofNat', UInt8.toNat_ofNat']
  omega

theorem monitorPut_cursorShown (on : m.OnScreen) (c : UInt8) : (monitorPut m c).CursorShown := by
  obtain ⟨edge, column⟩ := wrapRow_edge (putChar_edge (on.heard c) c)
  exact updateCursor_shown (scroll_onScreen edge column)

theorem Shows.run {text : List UInt8} (shown : Shows m p) (room : p.row.length < 80)
    (printable : ∀ c ∈ text, c = 10 ∨ 32 ≤ c ∧ c < 128) :
    Shows (text.foldl monitorPut m) (text.foldl (Page.put 80 (· = 10)) p) := by
  induction text generalizing m p with
  | nil => exact shown
  | cons c text ih =>
    obtain ⟨first, rest⟩ := List.forall_mem_cons.mp printable
    exact ih (shown.next room first) (Page.put_row_lt room c) rest

theorem Monitor.Cleared.shows (cleared : m.Cleared) : Shows m Page.start := by
  refine ⟨fun y x lower column => ?_, cleared.cursorX, cleared.cursorY⟩
  rw [Page.at?_start, cleared.cells _ (by omega)]
  rfl

/-- After a text of printable characters and newlines the screen shows the last 25 rows of the text,
and the cursor where it goes on; after any text the cursor is on the screen, and so was every store. -/
theorem monitor_shows_last_rows (cleared : m.Cleared) :
    (∀ text : List UInt8, (∀ c ∈ text, c = 10 ∨ 32 ≤ c ∧ c < 128) →
      Shows (text.foldl monitorPut m) (textPage text) ∧
        (text ≠ [] → (text.foldl monitorPut m).CursorShown)) ∧
      ∀ text : List UInt8, (text.foldl monitorPut m).OnScreen := by
  refine ⟨fun text printable => ⟨?_, fun some => ?_⟩, monitor_onScreen cleared.onScreen⟩
  · exact cleared.shows.run (by decide) printable
  · obtain ⟨front, c, rfl⟩ := List.eq_nil_or_concat text |>.resolve_left some
    rw [List.concat_eq_append, List.foldl_append]
    exact monitorPut_cursorShown (monitor_onScreen cleared.onScreen front) c

end

/-- A screen of blanks, with the serial port on. -/
def clearScreen : Monitor := ⟨fun _ => 0x0F20, 0, 0, true, [], 0, 0, []⟩

theorem monitor_shows_last_rows_clear :
    (∀ text : List UInt8, (∀ c ∈ text, c = 10 ∨ 32 ≤ c ∧ c < 128) →
      Shows (text.foldl monitorPut clearScreen) (textPage text) ∧
        (text ≠ [] → (text.foldl monitorPut clearScreen).CursorShown)) ∧
      ∀ text : List UInt8, (text.foldl monitorPut clearScreen).OnScreen :=
  monitor_shows_last_rows ⟨fun _ _ => rfl, rfl, rfl, rfl⟩

end LearningOS
