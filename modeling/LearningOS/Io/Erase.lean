import LearningOS.Io.Screen

namespace LearningOS

variable {m : Monitor} {p : Page UInt8} {c : UInt8} {top : Nat}

/-- The bytes of a call of `monitor_write`. -/
def monitorWrite (m : Monitor) (s : List UInt8) : Monitor := s.foldl monitorPut m

/-- The screen shows a page from one of its rows on, and all that follow fit. -/
def ShowsFrom (m : Monitor) (p : Page UInt8) (top : Nat) : Prop :=
  Shows m (p.skip top) ∧ top ≤ p.ended.length ∧ p.rows.length ≤ top + 25

theorem Shows.skip {top : Nat} (shown : Shows m p) (before : top + 25 ≤ p.rows.length) : Shows m (p.skip top) := by
  refine ⟨fun y x lower column => ?_, shown.cursorX, ?_⟩
  · rw [Page.at?, Page.lastRows_skip (by decide) before]
    exact shown.cells y x lower column
  · rw [Page.line_skip (by decide) before]
    exact shown.cursorY

/-- A page that is shown is shown from its last 25 rows on. -/
theorem Shows.showsFrom (shown : Shows m p) : ShowsFrom m p (p.rows.length - 25) := by
  have count := p.rows_length
  refine ⟨?_, by omega, by omega⟩
  by_cases few : p.rows.length ≤ 25
  · rw [Nat.sub_eq_zero_of_le few]
    exact shown
  · exact shown.skip (by omega)

/-- A backspace goes back over the last character of a page, also to the end of the row before. -/
theorem stepBack_put (shown : Shows m (p.put 80 (· = 10) c)) (plain : c ≠ 10) (room : p.row.length < 80)
    (few : (p.put 80 (· = 10) c).rows.length ≤ 25) :
    stepBack m = { m with cursorX := p.row.length, cursorY := p.line 25 } := by
  have x := shown.cursorX
  have y := shown.cursorY
  rw [Page.put_rows_length (by simpa using plain)] at few
  rw [Page.put, if_neg (by simpa using plain)] at x y
  by_cases more : p.row.length + 1 < 80
  · rw [if_pos more] at x y
    have x : m.cursorX = p.row.length + 1 := x.trans (List.length_append ..)
    rw [Page.line_push] at y
    rw [stepBack, if_pos (by omega), x, ← y]
    rfl
  · rw [if_neg more] at x y few
    have count := p.rows_length
    have full : p.row.length = 79 := by omega
    have x : m.cursorX = 0 := x
    rw [Page.line_newRow (by decide), Page.push_rows_length, if_pos (Nat.lt_of_succ_le few), Page.line_push] at y
    rw [stepBack, if_neg (by omega), if_pos (by omega), y, full]
    rfl

theorem Shows.putBack (shown : Shows m (p.put 80 (· = 10) c)) (plain : c ≠ 10) (room : p.row.length < 80)
    (few : (p.put 80 (· = 10) c).rows.length ≤ 25) : Shows (scroll (wrapRow (putChar m 8))) p := by
  have line := p.line_lt (show 0 < 25 by decide)
  have fewer : p.rows.length ≤ 25 := by
    rw [Page.put_rows_length (by simpa using plain)] at few
    split at few
    · exact few
    · exact Nat.le_of_succ_le few
  have blanked : Shows (putChar m 8) p := by
    rw [putChar, if_neg (by decide), if_neg (by decide), if_pos rfl, stepBack_put shown plain room few]
    refine ⟨fun y x lower column => ?_, rfl, rfl⟩
    dsimp only
    rw [Monitor.store_cell]
    have cell := shown.cells y x lower column
    rw [Page.at?_put (by decide) (by simpa using plain) few] at cell
    by_cases here : y = p.line 25 ∧ x = p.row.length
    · obtain ⟨rfl, rfl⟩ := here
      rw [if_pos (by omega), Page.at?_next fewer]
      rfl
    · rw [if_neg here] at cell
      rw [if_neg (by omega)]
      exact cell
  exact blanked.wrapRow_same room

theorem Shows.back (shown : Shows m (p.put 80 (· = 10) c)) (plain : c ≠ 10) (room : p.row.length < 80)
    (few : (p.put 80 (· = 10) c).rows.length ≤ 25) : Shows (monitorPut m 8) p := by
  have heard : Shows (if m.serialEnabled then { m with serial := m.serial ++ [8] } else m) (p.put 80 (· = 10) c) := by
    split
    · exact ⟨shown.cells, shown.cursorX, shown.cursorY⟩
    · exact shown
  obtain ⟨cells, x, y⟩ := heard.putBack plain room few
  exact ⟨cells, x, y⟩

/-- A backspace, a blank and a backspace take the last character of a page off the screen. -/
theorem Shows.erase (shown : Shows m (p.put 80 (· = 10) c)) (plain : c ≠ 10) (room : p.row.length < 80)
    (few : (p.put 80 (· = 10) c).rows.length ≤ 25) : Shows (monitorWrite m [8, 32, 8]) p := by
  have blank : Shows (monitorPut (monitorPut m 8) 32) (p.put 80 (· = 10) 32) :=
    (shown.back plain room few).next room (.inr ⟨by decide, by decide⟩)
  rw [Page.put_rows_length (by simpa using plain)] at few
  refine blank.back (by decide) room ?_
  rw [Page.put_rows_length (by decide)]
  exact few

/-- A page with a text behind it. -/
def typedOn (p : Page UInt8) (text : List UInt8) : Page UInt8 := text.foldl (Page.put 80 (· = 10)) p

theorem typedOn_snoc (p : Page UInt8) (text : List UInt8) (c : UInt8) :
    typedOn p (text ++ [c]) = (typedOn p text).put 80 (· = 10) c := List.foldl_append

theorem typedOn_size {text : List UInt8} (room : p.row.length < 80) (plain : ∀ c ∈ text, c ≠ 10) :
    (typedOn p text).row.length < 80 ∧
      80 * (typedOn p text).ended.length + (typedOn p text).row.length =
        80 * p.ended.length + p.row.length + text.length := by
  induction text generalizing p with
  | nil => exact ⟨room, rfl⟩
  | cons c text ih =>
    obtain ⟨first, others⟩ := List.forall_mem_cons.mp plain
    obtain ⟨inside, size⟩ := ih (Page.put_row_lt room c) others
    refine ⟨inside, size.trans ?_⟩
    rw [Page.put_size room (by simpa using first), List.length_cons]
    omega

/-- The screen shows a page with a text behind it from one of its rows on, and the row the text
begins in is on it. -/
def ShowsLine (m : Monitor) (p : Page UInt8) (text : List UInt8) (top : Nat) : Prop :=
  top ≤ p.ended.length ∧ ShowsFrom m (typedOn p text) top

/-- The row the screen begins with, once it has had room for one more text behind the page. -/
def topAfter (p : Page UInt8) (top : Nat) (text : List UInt8) : Nat := max top ((typedOn p text).rows.length - 25)

theorem Shows.showsLine (shown : Shows m p) : ShowsLine m p [] (p.rows.length - 25) := by
  have count := p.rows_length
  exact ⟨by omega, shown.showsFrom⟩

namespace ShowsLine
variable {text : List UInt8}

/-- A line of at most 24 rows never loses the row it begins in. -/
theorem type (shown : ShowsLine m p text top) (room : p.row.length < 80) (plain : ∀ c ∈ text, c ≠ 10)
    (few : text.length < 1920) (printable : 32 ≤ c ∧ c < 128) :
    ShowsLine (monitorPut m c) p (text ++ [c]) (topAfter p top (text ++ [c])) := by
  obtain ⟨begins, here, within, rows⟩ := shown
  obtain ⟨inside, size⟩ := typedOn_size room plain
  have other : c ≠ 10 := by
    rintro rfl
    exact absurd printable.1 (by decide)
  have next := here.next (show ((typedOn p text).skip top).row.length < 80 from inside) (.inr printable)
  have typed : ∀ b ∈ text ++ [c], b ≠ 10 := List.forall_mem_append.mpr ⟨plain, List.forall_mem_singleton.mpr other⟩
  obtain ⟨insideNext, sizeNext⟩ := typedOn_size room typed
  rw [List.length_append, List.length_singleton] at sizeNext
  rw [Page.put_skip within, ← typedOn_snoc] at next
  have count := (typedOn p (text ++ [c])).rows_length
  have countBefore := (typedOn p text).rows_length
  unfold topAfter
  by_cases fits : (typedOn p (text ++ [c])).rows.length ≤ top + 25
  · rw [Nat.max_eq_left (by omega)]
    exact ⟨begins, next, by omega, fits⟩
  · have moved : Shows _ (((typedOn p (text ++ [c])).skip top).skip 1) := next.skip (by
      rw [Page.skip_rows_length (by omega)]
      omega)
    rw [Page.skip_skip] at moved
    rw [Nat.max_eq_right (by omega), show (typedOn p (text ++ [c])).rows.length - 25 = top + 1 by omega]
    exact ⟨by omega, moved, by omega, by omega⟩

theorem erase (shown : ShowsLine m p (text ++ [c]) top) (room : p.row.length < 80) (plain : ∀ b ∈ text ++ [c], b ≠ 10) :
    ShowsLine (monitorWrite m [8, 32, 8]) p text (topAfter p top text) := by
  obtain ⟨begins, here, within, rows⟩ := shown
  obtain ⟨before, last⟩ := List.forall_mem_append.mp plain
  obtain ⟨inside, size⟩ := typedOn_size room before
  obtain ⟨insideNext, sizeNext⟩ := typedOn_size room plain
  have shorter : top ≤ (typedOn p text).ended.length := by omega
  rw [List.length_append, List.length_singleton] at sizeNext
  have count := (typedOn p (text ++ [c])).rows_length
  have countBefore := (typedOn p text).rows_length
  have few : ((typedOn p (text ++ [c])).skip top).rows.length ≤ 25 := by
    rw [Page.skip_rows_length within]
    omega
  rw [typedOn_snoc, ← Page.put_skip shorter] at here few
  rw [topAfter, Nat.max_eq_left (by omega)]
  exact ⟨begins, here.erase (last c List.mem_cons_self) inside few, shorter, by omega⟩

/-- Nothing is typed or taken back. -/
theorem same (shown : ShowsLine m p text top) : ShowsLine m p text (topAfter p top text) := by
  obtain ⟨begins, here, within, rows⟩ := shown
  rw [topAfter, Nat.max_eq_left (by omega)]
  exact ⟨begins, here, within, rows⟩

end ShowsLine

end LearningOS
