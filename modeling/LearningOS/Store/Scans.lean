import Mathlib.Data.List.GetD

namespace NulText

/-- The character at an index of a text, the NUL behind it included. -/
def charAt (text : List UInt8) (p : Nat) : UInt8 := text.getD p 0

theorem charAt_lt {text : List UInt8} {p : Nat} (more : charAt text p ≠ 0) : p < text.length :=
  Nat.lt_of_not_le fun past => more (List.getD_eq_default _ _ past)

theorem charAt_lt_of {text : List UInt8} {p : Nat} {cond : UInt8 → Bool} (stops : cond 0 = false)
    (more : cond (charAt text p) = true) : p < text.length := by
  refine charAt_lt fun zero => ?_
  rw [zero, stops] at more
  cases more

/-- A cursor moved on while a condition holds that a NUL does not meet. -/
def skipWhile (cond : UInt8 → Bool) (stops : cond 0 = false) (text : List UInt8) (p : Nat) : Nat :=
  if cond (charAt text p) then skipWhile cond stops text (p + 1) else p
termination_by text.length - p
decreasing_by
  have inside := charAt_lt_of stops ‹_›
  omega

/-- The same with a NUL written over each character passed. -/
def clearWhile (cond : UInt8 → Bool) (stops : cond 0 = false) (text : List UInt8) (p : Nat) : List UInt8 × Nat :=
  if cond (charAt text p) then clearWhile cond stops (text.set p 0) (p + 1) else (text, p)
termination_by text.length - p
decreasing_by
  have inside := charAt_lt_of stops ‹_›
  rw [List.length_set]
  omega

section
variable {text front run rest : List UInt8} {p : Nat} {cond : UInt8 → Bool} {stops : cond 0 = false}

theorem drop_of_lt (inside : p < text.length) : text.drop p = charAt text p :: text.drop (p + 1) := by
  rw [List.drop_eq_getElem_cons inside, charAt, List.getD_eq_getElem _ _ inside]

theorem charAt_eq_zero_iff (string : 0 ∉ text) : charAt text p = 0 ↔ text.length ≤ p := by
  refine ⟨fun ends => Nat.le_of_not_lt fun inside => string ?_, fun past => List.getD_eq_default _ _ past⟩
  rw [charAt, List.getD_eq_getElem _ _ inside] at ends
  exact ends ▸ List.getElem_mem inside

@[simp] theorem charAt_append_length (front rest : List UInt8) :
    charAt (front ++ rest) front.length = charAt rest 0 := by
  rw [charAt, charAt, List.getD_append_right _ _ _ _ (Nat.le_refl _), Nat.sub_self]

@[simp] theorem charAt_cons_zero (c : UInt8) (rest : List UInt8) : charAt (c :: rest) 0 = c := rfl

/-- What is left behind a scan stops it. -/
theorem charAt_dropWhile (last : cond (charAt rest 0) = false) (text : List UInt8) :
    cond (charAt (text.dropWhile cond ++ rest) 0) = false := by
  cases left : text.dropWhile cond with
  | nil => exact last
  | cons c tail =>
    have first := List.head?_dropWhile_not cond text
    rw [left] at first
    simpa using first

theorem skipWhile_drop (text : List UInt8) (p : Nat) :
    text.drop (skipWhile cond stops text p) = (text.drop p).dropWhile cond := by
  induction p using skipWhile.induct cond stops text with
  | case1 p more ih =>
    rw [skipWhile, if_pos more, ih, drop_of_lt (charAt_lt_of stops more), List.dropWhile_cons_of_pos more]
  | case2 p other =>
    rw [skipWhile, if_neg other]
    rcases Nat.lt_or_ge p text.length with inside | past
    · rw [drop_of_lt inside, List.dropWhile_cons_of_neg other]
    · rw [List.drop_eq_nil_of_le past, List.dropWhile_nil]

theorem skipWhile_forward (text : List UInt8) (p : Nat) : p ≤ skipWhile cond stops text p := by
  induction p using skipWhile.induct cond stops text with
  | case1 p more ih =>
    rw [skipWhile, if_pos more]
    exact Nat.le_of_succ_le ih
  | case2 p other => exact Nat.le_of_eq (by rw [skipWhile, if_neg other])

theorem skipWhile_append (all : ∀ c ∈ run, cond c = true) (last : cond (charAt rest 0) = false) :
    skipWhile cond stops (front ++ (run ++ rest)) front.length = front.length + run.length := by
  induction run generalizing front with
  | nil => rw [skipWhile, charAt_append_length, List.nil_append, if_neg (by simp [last]), List.length_nil, Nat.add_zero]
  | cons c run ih =>
    have next : skipWhile cond stops (front ++ [c] ++ (run ++ rest)) (front ++ [c]).length = _ :=
      ih fun d member => all d (List.mem_cons_of_mem c member)
    rw [List.append_assoc, List.singleton_append, List.length_append, List.length_singleton] at next
    rw [skipWhile, charAt_append_length, List.cons_append, charAt_cons_zero, if_pos (all c List.mem_cons_self), next,
      List.length_cons]
    omega

theorem set_append_length (front rest : List UInt8) (c d : UInt8) :
    (front ++ c :: rest).set front.length d = front ++ d :: rest := by
  rw [List.set_append_right _ _ (Nat.le_refl _), Nat.sub_self, List.set_cons_zero]

theorem clearWhile_append (all : ∀ c ∈ run, cond c = true) (last : cond (charAt rest 0) = false) :
    clearWhile cond stops (front ++ (run ++ rest)) front.length =
      (front ++ (List.replicate run.length 0 ++ rest), front.length + run.length) := by
  induction run generalizing front with
  | nil =>
    rw [clearWhile, charAt_append_length, List.nil_append, if_neg (by simp [last])]
    rfl
  | cons c run ih =>
    have next : clearWhile cond stops (front ++ [0] ++ (run ++ rest)) (front ++ [0]).length = _ :=
      ih fun d member => all d (List.mem_cons_of_mem c member)
    rw [List.append_assoc, List.append_assoc, List.singleton_append, List.singleton_append, List.length_append,
      List.length_singleton] at next
    rw [clearWhile, charAt_append_length, List.cons_append, charAt_cons_zero, if_pos (all c List.mem_cons_self),
      set_append_length, next, List.length_cons, List.replicate_succ, List.cons_append, Nat.add_assoc,
      Nat.add_comm 1]

end

end NulText
