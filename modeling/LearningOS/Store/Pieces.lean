import Mathlib.Data.List.Basic

namespace Pieces
variable {α : Type} [DecidableEq α] {sep : α} {xs a : List α}

/-- The nonempty parts of a list between its separators. -/
def pieces (sep : α) (xs : List α) : List (List α) := (xs.splitOn sep).filter (· ≠ [])

theorem pieces_nil : pieces sep [] = [] := rfl

theorem pieces_plain (nonempty : a ≠ []) (plain : sep ∉ a) : pieces sep a = [a] := by
  simp [pieces, List.splitOn_eq_singleton plain, nonempty]

theorem pieces_append_sep (nonempty : a ≠ []) (plain : sep ∉ a) (xs : List α) :
    pieces sep (a ++ sep :: xs) = a :: pieces sep xs := by
  simp [pieces, List.splitOn_append_cons_self_of_not_mem plain, nonempty]

theorem pieces_sep (xs : List α) : pieces sep (sep :: xs) = pieces sep xs := by
  have first := List.splitOn_append_cons_self_of_not_mem (List.not_mem_nil : sep ∉ []) xs
  rw [List.nil_append] at first
  simp [pieces, first]

theorem pieces_append (xs ys : List α) : pieces sep (xs ++ sep :: ys) = pieces sep xs ++ pieces sep ys := by
  rw [pieces, List.splitOn_append_cons_self, List.filter_append]
  rfl

theorem pieces_replicate (k : Nat) : pieces sep (List.replicate k sep) = [] := by
  induction k with
  | zero => rfl
  | succ k ih => rw [List.replicate_succ, pieces_sep, ih]

theorem pieces_replicate_append (k : Nat) (xs : List α) : pieces sep (List.replicate k sep ++ xs) = pieces sep xs := by
  induction k with
  | zero => rfl
  | succ k ih => rw [List.replicate_succ, List.cons_append, pieces_sep, ih]

/-- More separators at an end or next to another one make no difference. -/
theorem pieces_pad {ys : List α} (k : Nat)
    (next : xs = [] ∨ ys = [] ∨ xs.getLast? = some sep ∨ ys.head? = some sep) :
    pieces sep (xs ++ (List.replicate k sep ++ ys)) = pieces sep (xs ++ ys) := by
  rcases next with rfl | rfl | last | first
  · rw [List.nil_append, List.nil_append, pieces_replicate_append]
  · cases k with
    | zero => rfl
    | succ k =>
      rw [List.append_nil, List.append_nil, List.replicate_succ, pieces_append, pieces_replicate, List.append_nil]
  · obtain ⟨front, rfl⟩ := List.getLast?_eq_some_iff.mp last
    rw [List.append_assoc, List.append_assoc, List.singleton_append, List.singleton_append, pieces_append,
      pieces_append, pieces_replicate_append]
  · obtain ⟨rest, rfl⟩ := List.head?_eq_some_iff.mp first
    cases k with
    | zero => rfl
    | succ k =>
      rw [List.replicate_succ, List.cons_append, pieces_append, pieces_append, pieces_replicate,
        List.nil_append, pieces_append]

theorem pieces_dropWhile (xs : List α) : pieces sep (xs.dropWhile (· = sep)) = pieces sep xs := by
  induction xs with
  | nil => rfl
  | cons x xs ih =>
    by_cases here : x = sep
    · subst here
      rw [List.dropWhile_cons_of_pos (by simp), ih, pieces_sep]
    · rw [List.dropWhile_cons_of_neg (by simpa using here)]

/-- What is left behind the separators does not start with one. -/
theorem head?_skip (sep : α) (xs : List α) : (xs.dropWhile (· = sep)).head? ≠ some sep := by
  intro stuck
  have stops := List.head?_dropWhile_not (· = sep) xs
  rw [stuck] at stops
  simp at stops

/-- A list is its part before the first separator, and the rest from there on. -/
theorem span_cases (sep : α) (xs : List α) :
    (sep ∉ xs ∧ xs.takeWhile (· ≠ sep) = xs ∧ xs.dropWhile (· ≠ sep) = []) ∨
      ∃ a rest, xs = a ++ sep :: rest ∧ sep ∉ a ∧ xs.takeWhile (· ≠ sep) = a ∧
        xs.dropWhile (· ≠ sep) = sep :: rest := by
  induction xs with
  | nil => exact Or.inl ⟨List.not_mem_nil, rfl, rfl⟩
  | cons x xs ih =>
    by_cases here : x = sep
    · subst here
      exact Or.inr ⟨[], xs, rfl, List.not_mem_nil, by simp, by simp⟩
    rw [List.takeWhile_cons_of_pos (by simpa using here), List.dropWhile_cons_of_pos (by simpa using here)]
    rcases ih with ⟨plain, all, none⟩ | ⟨a, rest, split, plain, front, back⟩
    · exact Or.inl ⟨by simp [plain, Ne.symm here], by rw [all], none⟩
    · exact Or.inr ⟨x :: a, rest, by rw [split, List.cons_append], by simp [plain, Ne.symm here], by rw [front], back⟩

/-- Skipping a part and the separators behind it makes progress. -/
theorem skip_shorter (sep : α) (nonempty : xs ≠ []) :
    ((xs.dropWhile (· ≠ sep)).dropWhile (· = sep)).length < xs.length := by
  rcases span_cases sep xs with ⟨_, _, back⟩ | ⟨a, rest, split, _, _, back⟩
  · rw [back]
    exact List.length_pos_of_ne_nil nonempty
  · have shorter := (List.dropWhile_sublist (· = sep) (l := rest)).length_le
    rw [back, List.dropWhile_cons_of_pos (by simp), split, List.length_append, List.length_cons]
    omega

/-- The first piece of a list that does not start with a separator. -/
theorem pieces_cons {x : α} (start : x ≠ sep) (xs : List α) :
    pieces sep (x :: xs) = (x :: xs).takeWhile (· ≠ sep) :: pieces sep ((x :: xs).dropWhile (· ≠ sep)) := by
  rcases span_cases sep (x :: xs) with ⟨plain, front, back⟩ | ⟨a, rest, split, plain, front, back⟩
  · rw [front, back, pieces_plain (List.cons_ne_nil x xs) plain, pieces_nil]
  · have nonempty : a ≠ [] := by
      rintro rfl
      exact start (List.cons.inj split).1
    rw [front, back, pieces_sep, split, pieces_append_sep nonempty plain]

theorem pieces_eq_nil (none : pieces sep xs = []) : xs = List.replicate xs.length sep := by
  induction xs with
  | nil => rfl
  | cons x xs ih =>
    by_cases here : x = sep
    · subst here
      rw [pieces_sep] at none
      rw [List.length_cons, List.replicate_succ, ← ih none]
    · simp [pieces_cons here] at none

/-- A list with one piece is that piece with separators around it. -/
theorem pieces_eq_singleton (one : pieces sep xs = [a]) :
    a ≠ [] ∧ sep ∉ a ∧ ∃ i j, xs = List.replicate i sep ++ (a ++ List.replicate j sep) := by
  induction xs with
  | nil => simp [pieces_nil] at one
  | cons x xs ih =>
    by_cases here : x = sep
    · subst here
      rw [pieces_sep] at one
      obtain ⟨nonempty, plain, i, j, split⟩ := ih one
      exact ⟨nonempty, plain, i + 1, j, by rw [split, List.replicate_succ, List.cons_append]⟩
    rcases span_cases sep (x :: xs) with ⟨plain, front, back⟩ | ⟨b, rest, split, plain, front, back⟩
    · rw [pieces_cons here, front, back, pieces_nil] at one
      cases (List.cons.inj one).1
      exact ⟨List.cons_ne_nil x xs, plain, 0, 0, by simp⟩
    · rw [pieces_cons here, front, back, pieces_sep] at one
      obtain ⟨rfl, none⟩ := List.cons.inj one
      have nonempty : b ≠ [] := by
        rintro rfl
        exact here (List.cons.inj split).1
      refine ⟨nonempty, plain, 0, rest.length + 1, ?_⟩
      rw [split, List.replicate_succ, ← pieces_eq_nil none]
      rfl

end Pieces
