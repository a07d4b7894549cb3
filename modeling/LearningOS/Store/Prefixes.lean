import Mathlib.Data.List.Infix
import Mathlib.Logic.Function.Basic
import Mathlib.Logic.Nontrivial.Basic

namespace Prefixes

/-- How many of the first `n` requests are answered before one is not. -/
def leading (ok : Nat → Bool) : Nat → Nat
  | 0 => 0
  | n + 1 => if ok 0 then leading (fun i => ok (i + 1)) n + 1 else 0

theorem leading_le (ok : Nat → Bool) (n : Nat) : leading ok n ≤ n := by
  induction n generalizing ok with
  | zero => exact le_rfl
  | succ n ih =>
    unfold leading
    split
    · exact Nat.succ_le_succ (ih _)
    · exact Nat.zero_le _

theorem leading_answered (ok : Nat → Bool) {n i : Nat} (less : i < leading ok n) : ok i = true := by
  induction n generalizing ok i with
  | zero => exact absurd less (Nat.not_lt_zero i)
  | succ n ih =>
    unfold leading at less
    split at less
    · cases i with
      | zero => assumption
      | succ i => exact ih (fun i => ok (i + 1)) (Nat.lt_of_succ_lt_succ less)
    · exact absurd less (Nat.not_lt_zero i)

theorem leading_refused (ok : Nat → Bool) {n : Nat} (less : leading ok n < n) : ok (leading ok n) = false := by
  induction n generalizing ok with
  | zero => exact absurd less (Nat.not_lt_zero _)
  | succ n ih =>
    unfold leading at less ⊢
    split at less
    · rename_i first
      rw [if_pos first]
      exact ih (fun i => ok (i + 1)) (Nat.lt_of_succ_lt_succ less)
    · rename_i first
      simpa only [if_neg first, Bool.not_eq_true] using first

/-- The count is fixed by its answers and the request after them. -/
theorem leading_unique {ok : Nat → Bool} {n k : Nat} (answered : ∀ i, i < k → ok i = true) (within : k ≤ n)
    (ends : k < n → ok k = false) : leading ok n = k := by
  rcases Nat.lt_trichotomy (leading ok n) k with less | same | more
  · have refused := leading_refused ok (Nat.lt_of_lt_of_le less within)
    simp [answered _ less] at refused
  · exact same
  · have refused := ends (Nat.lt_of_lt_of_le more (leading_le ok n))
    simp [leading_answered ok more] at refused

theorem leading_all {ok : Nat → Bool} {n : Nat} (answered : ∀ i, i < n → ok i = true) : leading ok n = n :=
  leading_unique answered le_rfl fun less => absurd less (Nat.lt_irrefl n)

/-- Places whose contents start those of others, whatever the places hold, are the
first of these themselves. -/
theorem prefix_of_contents {α β : Type} [DecidableEq α] [Nontrivial β] {places others : List α} (held : α → β)
    (always : ∀ f : α → β, (∀ a, a ∉ places → f a = held a) → places.map f <+: others.map f) :
    places <+: others := by
  induction places generalizing others with
  | nil => exact List.nil_prefix
  | cons a rest ih =>
    cases others with
    | nil => exact absurd (List.prefix_nil.mp (always held fun _ _ => rfl)) (List.cons_ne_nil _ _)
    | cons b others =>
      have heads (f : α → β) (same : ∀ c, c ∉ a :: rest → f c = held c) :
          f a = f b ∧ rest.map f <+: others.map f := List.cons_prefix_cons.mp (always f same)
      have tail : rest <+: others := ih fun f same => (heads f fun c outside =>
        same c fun member => outside (List.mem_cons_of_mem a member)).2
      have head : a = b := by
        by_contra differ
        -- a content of `a` that `b` does not have
        obtain ⟨v, other⟩ := exists_ne (held b)
        have equal := (heads (Function.update held a v) fun c outside =>
          Function.update_of_ne (show c ≠ a from by rintro rfl; exact outside List.mem_cons_self) v held).1
        rw [Function.update_self, Function.update_of_ne (Ne.symm differ)] at equal
        exact other equal
      exact List.cons_prefix_cons.mpr ⟨head, tail⟩

section
variable {α : Type} (stops : α → Bool)

/-- The elements up to the first that stops, with it. -/
def upTo : List α → List α
  | [] => []
  | a :: rest => if stops a then [a] else a :: upTo rest

/-- An element that stops is among those up to the first. -/
theorem find?_upTo {p : α → Bool} (all : ∀ a, stops a = true → p a = true) (l : List α) :
    (upTo stops l).find? p = l.find? p := by
  induction l with
  | nil => rfl
  | cons a rest ih =>
    by_cases stop : stops a = true
    · rw [upTo, if_pos stop, List.find?_cons_of_pos (all a stop), List.find?_cons_of_pos (all a stop)]
    · rw [upTo, if_neg stop, List.find?_cons, List.find?_cons, ih]

/-- Where nothing follows the first that stops, the elements up to it are all there are. -/
theorem filter_upTo {p : α → Bool} {l : List α} (none : ∀ a, stops a = true → p a = false)
    (ends : l.Pairwise fun a b => stops a = true → stops b = true) : (upTo stops l).filter p = l.filter p := by
  induction l with
  | nil => rfl
  | cons a rest ih =>
    obtain ⟨later, ends⟩ := List.pairwise_cons.mp ends
    by_cases stop : stops a = true
    · have empty : rest.filter p = [] := List.filter_eq_nil_iff.mpr fun b member => by
        simp [none b (later b member stop)]
      rw [upTo, if_pos stop, List.filter_cons, List.filter_cons, empty]
      rfl
    · rw [upTo, if_neg stop, List.filter_cons, List.filter_cons, ih ends]

theorem upTo_sublist (l : List α) : (upTo stops l).Sublist l := by
  induction l with
  | nil => exact List.Sublist.refl []
  | cons a rest ih =>
    unfold upTo
    split
    · exact (List.nil_sublist rest).cons_cons a
    · exact ih.cons_cons a

theorem mem_upTo_range' {stops : Nat → Bool} {a n i : Nat} :
    i ∈ upTo stops (List.range' a n) ↔ a ≤ i ∧ i < a + n ∧ ∀ k, a ≤ k → k < i → stops k = false := by
  induction n generalizing a with
  | zero =>
    simp only [List.range'_zero, upTo, List.not_mem_nil, false_iff]
    omega
  | succ n ih =>
    rw [List.range'_succ, upTo]
    split
    · rename_i stop
      rw [List.mem_singleton]
      constructor
      · rintro rfl
        exact ⟨le_rfl, by omega, by omega⟩
      · rintro ⟨lower, _, before⟩
        by_contra other
        simp [before a le_rfl (by omega)] at stop
    · rename_i go
      rw [List.mem_cons, ih]
      constructor
      · rintro (rfl | ⟨lower, upper, before⟩)
        · exact ⟨le_rfl, by omega, by omega⟩
        · refine ⟨by omega, by omega, fun k low high => ?_⟩
          rcases Nat.eq_or_lt_of_le low with rfl | more
          · simpa using go
          · exact before k more high
      · rintro ⟨lower, upper, before⟩
        rcases Nat.eq_or_lt_of_le lower with rfl | more
        · exact Or.inl rfl
        · exact Or.inr ⟨more, by omega, fun k low high => before k (by omega) high⟩

end

theorem mem_takeWhile_range' {p : Nat → Bool} {a n i : Nat} :
    i ∈ (List.range' a n).takeWhile p ↔ a ≤ i ∧ i < a + n ∧ ∀ k, a ≤ k → k ≤ i → p k = true := by
  induction n generalizing a with
  | zero =>
    simp only [List.range'_zero, List.takeWhile_nil, List.not_mem_nil, false_iff]
    omega
  | succ n ih =>
    rw [List.range'_succ]
    by_cases go : p a = true
    · rw [List.takeWhile_cons_of_pos go, List.mem_cons, ih]
      constructor
      · rintro (rfl | ⟨lower, upper, before⟩)
        · refine ⟨le_rfl, by omega, fun k low high => ?_⟩
          rwa [Nat.le_antisymm high low]
        · refine ⟨by omega, by omega, fun k low high => ?_⟩
          rcases Nat.eq_or_lt_of_le low with rfl | more
          · exact go
          · exact before k more high
      · rintro ⟨lower, upper, before⟩
        rcases Nat.eq_or_lt_of_le lower with rfl | more
        · exact Or.inl rfl
        · exact Or.inr ⟨more, by omega, fun k low high => before k (by omega) high⟩
    · rw [List.takeWhile_cons_of_neg go]
      simp only [List.not_mem_nil, false_iff]
      exact fun ⟨lower, _, before⟩ => go (before a le_rfl lower)

/-- The first hit in an ascending list is the least. -/
theorem find?_least {l : List Nat} {p : Nat → Bool} {i j : Nat} (sorted : l.Pairwise (· < ·))
    (found : l.find? p = some i) (member : j ∈ l) (hit : p j = true) : i ≤ j := by
  induction l with
  | nil => simp at member
  | cons a rest ih =>
    obtain ⟨above, sorted⟩ := List.pairwise_cons.mp sorted
    by_cases first : p a = true
    · rw [List.find?_cons_of_pos first] at found
      cases Option.some.inj found
      rcases List.mem_cons.mp member with rfl | later
      · exact le_rfl
      · exact (above j later).le
    · rw [List.find?_cons_of_neg first] at found
      rcases List.mem_cons.mp member with rfl | later
      · exact absurd hit first
      · exact ih sorted found later

/-- Cutting a list keeps its front alone exactly if the front is long enough or all there is. -/
theorem take_append_eq_iff {α : Type} {front back : List α} {n : Nat} :
    (front ++ back).take n = front.take n ↔ n ≤ front.length ∨ back = [] := by
  constructor
  · intro same
    have lengths := congrArg List.length same
    simp only [List.length_take, List.length_append] at lengths
    rcases Nat.lt_or_ge front.length n with short | long
    · exact Or.inr (List.length_eq_zero_iff.mp (by omega))
    · exact Or.inl long
  · rintro (long | rfl)
    · exact List.take_append_of_le_length long
    · rw [List.append_nil]

/-- What holds of the numbers of a range up to the first that fails a test, if the first of
them passes it. -/
theorem forall_front_succ {g P : Nat → Prop} {i n : Nat} (first : g i) :
    (∀ k, k < n + 1 → (∀ j, j ≤ k → g (i + j)) → P (i + k)) ↔
      P i ∧ ∀ k, k < n → (∀ j, j ≤ k → g (i + 1 + j)) → P (i + 1 + k) := by
  have shift (j : Nat) : i + 1 + j = i + (j + 1) := by omega
  constructor
  · intro all
    refine ⟨all 0 (by omega) fun j le => ?_, fun k less before => ?_⟩
    · obtain rfl : j = 0 := by omega
      exact first
    · rw [shift]
      refine all (k + 1) (by omega) fun j le => ?_
      cases j with
      | zero => exact first
      | succ j => exact shift j ▸ before j (by omega)
  · rintro ⟨here, later⟩ k less before
    cases k with
    | zero => exact here
    | succ k =>
      rw [← shift]
      exact later k (by omega) fun j le => shift j ▸ before (j + 1) (by omega)

end Prefixes
