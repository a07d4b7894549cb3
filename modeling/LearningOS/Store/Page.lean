import Mathlib.Data.List.Basic

/-- A text in rows: those that have ended, and the one it goes on in. -/
structure Page (α : Type) where
  ended : List (List α)
  row : List α

namespace Page
variable {α : Type} {p : Page α} {c : α} {height width x y : Nat}

def start : Page α := ⟨[], []⟩

def push (p : Page α) (c : α) : Page α := ⟨p.ended, p.row ++ [c]⟩

def newRow (p : Page α) : Page α := ⟨p.ended ++ [p.row], []⟩

def rows (p : Page α) : List (List α) := p.ended ++ [p.row]

/-- A row ends at a newline, or at once when it is full. -/
def put (width : Nat) (newline : α → Bool) (p : Page α) (c : α) : Page α :=
  if newline c then p.newRow else if p.row.length + 1 < width then p.push c else (p.push c).newRow

def layout (width : Nat) (newline : α → Bool) (text : List α) : Page α := text.foldl (put width newline) start

/-- The last rows, or all if there are fewer. -/
def lastRows (height : Nat) (p : Page α) : List (List α) := p.rows.drop (p.rows.length - height)

/-- What stands in a line and a column of the last rows. -/
def at? (height : Nat) (p : Page α) (y x : Nat) : Option α := (p.lastRows height)[y]?.bind (·[x]?)

/-- The line in which the text goes on. -/
def line (height : Nat) (p : Page α) : Nat := min p.rows.length height - 1

@[simp] theorem rows_length (p : Page α) : p.rows.length = p.ended.length + 1 := by simp [rows]

theorem rows_of_lt (p : Page α) {k : Nat} (early : k < p.ended.length) : p.rows[k]? = p.ended[k]? :=
  List.getElem?_append_left early

theorem rows_last (p : Page α) : p.rows[p.ended.length]? = some p.row := by simp [rows]

theorem newRow_rows (p : Page α) : p.newRow.rows = p.rows ++ [[]] := rfl

theorem line_lt (positive : 0 < height) (p : Page α) : p.line height < height := by
  unfold line
  omega

theorem at?_eq (height : Nat) (p : Page α) (y x : Nat) :
    p.at? height y x = p.rows[p.rows.length - height + y]?.bind (·[x]?) := by
  rw [at?, lastRows, List.getElem?_drop]

theorem at?_start (height y x : Nat) : (start : Page α).at? height y x = none := by
  rw [at?_eq, start, rows, List.nil_append, List.getElem?_singleton]
  split
  · rfl
  · rfl

theorem push_rows_length (p : Page α) (c : α) : (p.push c).rows.length = p.rows.length := by
  rw [rows_length, rows_length, push]

theorem line_push (p : Page α) (c : α) : (p.push c).line height = p.line height := by
  rw [line, line, push_rows_length]

theorem at?_push (positive : 0 < height) :
    (p.push c).at? height y x = if y = p.line height ∧ x = p.row.length then some c else p.at? height y x := by
  have count := p.rows_length
  rw [at?_eq, at?_eq, push_rows_length, line]
  by_cases last : p.rows.length - height + y = p.ended.length
  · have here : y = min p.rows.length height - 1 := by omega
    have pushed : (p.push c).rows[p.ended.length]? = some (p.row ++ [c]) := (p.push c).rows_last
    rw [last, p.rows_last, pushed, Option.bind_some, Option.bind_some, List.getElem?_append]
    by_cases inside : x < p.row.length
    · rw [if_pos inside, if_neg (by omega)]
    · by_cases next : x = p.row.length
      · subst next
        simp [here]
      · rw [if_neg inside, if_neg (fun both => next both.2), List.getElem?_eq_none (by simp; omega),
          List.getElem?_eq_none (by omega)]
  · have other : ¬(y = min p.rows.length height - 1 ∧ x = p.row.length) := by omega
    rw [if_neg other]
    rcases Nat.lt_or_gt_of_ne last with early | late
    · rw [p.rows_of_lt early, (p.push c).rows_of_lt early]
      rfl
    · rw [List.getElem?_eq_none (by rw [push_rows_length]; omega), List.getElem?_eq_none (by omega)]

/-- A new row has no characters. -/
theorem newRow_cell (p : Page α) (k x : Nat) : p.newRow.rows[k]?.bind (·[x]?) = p.rows[k]?.bind (·[x]?) := by
  rw [newRow_rows]
  rcases Nat.lt_or_ge k p.rows.length with early | late
  · rw [List.getElem?_append_left early]
  · rw [List.getElem?_append_right late, List.getElem?_singleton, List.getElem?_eq_none late]
    split
    · rfl
    · rfl

/-- While there are lines left a new row changes none of them. -/
theorem at?_newRow_of_lt (room : p.rows.length < height) : p.newRow.at? height y x = p.at? height y x := by
  have count : p.newRow.rows.length = p.rows.length + 1 := by simp [newRow_rows]
  rw [at?_eq, at?_eq, newRow_cell, count, Nat.sub_eq_zero_of_le (show p.rows.length + 1 ≤ height by omega),
    Nat.sub_eq_zero_of_le (Nat.le_of_lt room)]

/-- A new row on the last line moves the others up by one. -/
theorem at?_newRow_of_le (full : height ≤ p.rows.length) : p.newRow.at? height y x = p.at? height (y + 1) x := by
  have count : p.newRow.rows.length = p.rows.length + 1 := by simp [newRow_rows]
  rw [at?_eq, at?_eq, newRow_cell, count,
    show p.rows.length + 1 - height + y = p.rows.length - height + (y + 1) by omega]

theorem at?_below (below : height ≤ y) (full : height ≤ p.rows.length) : p.at? height y x = none := by
  rw [at?_eq, List.getElem?_eq_none (by omega), Option.bind_none]

theorem line_newRow (positive : 0 < height) :
    p.newRow.line height = if p.rows.length < height then p.line height + 1 else p.line height := by
  have count : p.newRow.rows.length = p.rows.length + 1 := by simp [newRow_rows]
  have some := p.rows_length
  rw [line, line, count]
  split <;> omega

/-- The row a text goes on in has room for a character. -/
theorem put_row_lt {newline : α → Bool} (room : p.row.length < width) (c : α) :
    (p.put width newline c).row.length < width := by
  rw [put]
  split
  · exact Nat.zero_lt_of_lt room
  · split
    · rename_i more
      simpa [push] using more
    · exact Nat.zero_lt_of_lt room

/-- A page without its first rows. -/
def skip (top : Nat) (p : Page α) : Page α := ⟨p.ended.drop top, p.row⟩

theorem put_skip {newline : α → Bool} {top : Nat} (inside : top ≤ p.ended.length) (c : α) :
    (p.skip top).put width newline c = (p.put width newline c).skip top := by
  have moved (row : List α) : p.ended.drop top ++ [row] = (p.ended ++ [row]).drop top :=
    (List.drop_append_of_le_length inside).symm
  by_cases ends : newline c = true
  · rw [put, put, if_pos ends, if_pos ends]
    exact congrArg (Page.mk · []) (moved p.row)
  · have same : (p.skip top).row = p.row := rfl
    rw [put, put, if_neg ends, if_neg ends, same]
    by_cases room : p.row.length + 1 < width
    · rw [if_pos room, if_pos room]
      rfl
    · rw [if_neg room, if_neg room]
      exact congrArg (Page.mk · []) (moved (p.row ++ [c]))

theorem skip_rows_length {top : Nat} (inside : top ≤ p.ended.length) :
    (p.skip top).rows.length = p.rows.length - top := by
  rw [rows_length, rows_length, skip, List.length_drop]
  omega

theorem skip_skip (j k : Nat) (p : Page α) : (p.skip j).skip k = p.skip (j + k) :=
  congrArg (Page.mk · p.row) List.drop_drop

/-- What the last rows are does not depend on the rows before them. -/
theorem lastRows_skip {top : Nat} (positive : 0 < height) (before : top + height ≤ p.rows.length) :
    (p.skip top).lastRows height = p.lastRows height := by
  have count := p.rows_length
  have inside : top ≤ p.ended.length := by omega
  have rows : (p.skip top).rows = p.rows.drop top := (List.drop_append_of_le_length inside).symm
  rw [lastRows, lastRows, rows, List.length_drop, List.drop_drop]
  exact congrArg p.rows.drop (by omega)

theorem line_skip {top : Nat} (positive : 0 < height) (before : top + height ≤ p.rows.length) :
    (p.skip top).line height = p.line height := by
  have count := p.rows_length
  rw [line, line, skip_rows_length (by omega)]
  omega

/-- Each character that does not end a row takes one place more. -/
theorem put_size {newline : α → Bool} (room : p.row.length < width) (plain : newline c = false) :
    width * (p.put width newline c).ended.length + (p.put width newline c).row.length =
      width * p.ended.length + p.row.length + 1 := by
  rw [put, if_neg (by simp [plain])]
  by_cases more : p.row.length + 1 < width
  · rw [if_pos more, push, List.length_append]
    rfl
  · have last : p.row.length + 1 = width := by omega
    rw [if_neg more]
    change width * (p.ended ++ [p.row ++ [c]]).length + 0 = _
    rw [List.length_append, Nat.mul_add, List.length_singleton]
    omega

/-- The place where the text goes on is free. -/
theorem at?_next (full : p.rows.length ≤ height) : p.at? height (p.line height) p.row.length = none := by
  have count := p.rows_length
  have last : p.rows.length - height + p.line height = p.ended.length := by
    rw [line]
    omega
  rw [at?_eq, last, rows_last]
  exact List.getElem?_eq_none (Nat.le_refl _)

theorem put_rows_length {newline : α → Bool} (plain : newline c = false) :
    (p.put width newline c).rows.length = if p.row.length + 1 < width then p.rows.length else p.rows.length + 1 := by
  rw [put, if_neg (by simp [plain])]
  by_cases more : p.row.length + 1 < width
  · rw [if_pos more, if_pos more, push_rows_length]
  · rw [if_neg more, if_neg more, newRow_rows, List.length_append, push_rows_length]
    rfl

/-- As long as all rows fit, a character changes one place. -/
theorem at?_put {newline : α → Bool} (positive : 0 < height) (plain : newline c = false)
    (few : (p.put width newline c).rows.length ≤ height) : (p.put width newline c).at? height y x =
      if y = p.line height ∧ x = p.row.length then some c else p.at? height y x := by
  rw [put_rows_length plain] at few
  rw [put, if_neg (by simp [plain])]
  by_cases more : p.row.length + 1 < width
  · rw [if_pos more, at?_push positive]
  · rw [if_neg more] at few
    rw [if_neg more, at?_newRow_of_lt (by rw [push_rows_length]; exact few), at?_push positive]

end Page
