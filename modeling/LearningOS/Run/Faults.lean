import Mathlib.Logic.Basic

namespace Faults
variable {ε α β : Type} {e : ε} {p q : Prop}

/-- What a computation of two steps returns, its second step returns from the result of
the first. -/
theorem bind_ok {x : Except ε α} {f : α → Except ε β} {b : β} (run : x >>= f = .ok b) :
    ∃ a, x = .ok a ∧ f a = .ok b := by
  cases x with
  | error e => simp [bind, Except.bind] at run
  | ok a => exact ⟨a, rfl, run⟩

/-- A second step that always returns adds no error. -/
theorem bind_ne_error {x : Except ε α} {f : α → Except ε β} (returns : ∀ a, ∃ b, f a = .ok b) :
    x >>= f ≠ .error e ↔ x ≠ .error e := by
  cases x with
  | error e => simp [bind, Except.bind]
  | ok a =>
    obtain ⟨b, same⟩ := returns a
    simp [bind, Except.bind, same]

/-- A computation that goes on as another exactly under a condition, and stops with one
error otherwise. -/
def Guarded (e : ε) (p : Prop) (x y : Except ε α) : Prop := (p ∧ x = y) ∨ (¬ p ∧ x = .error e)

theorem guarded_refl (e : ε) (x : Except ε α) : Guarded e True x x := Or.inl ⟨trivial, rfl⟩

theorem guarded_ite (e : ε) [Decidable p] (x : Except ε α) : Guarded e p (if p then x else .error e) x := by
  by_cases holds : p
  · exact Or.inl ⟨holds, if_pos holds⟩
  · exact Or.inr ⟨holds, if_neg holds⟩

namespace Guarded
variable {x y : Except ε α} {z : Except ε β} {f : α → Except ε β} {a : α}

theorem congr (guarded : Guarded e p x y) (same : p ↔ q) : Guarded e q x y := by
  rwa [Guarded, same] at guarded

theorem eq (guarded : Guarded e p x y) (holds : p) : x = y := by
  rcases guarded with ⟨_, same⟩ | ⟨fails, _⟩
  · exact same
  · exact absurd holds fails

/-- The conditions of two steps add up. -/
theorem bind (first : Guarded e p x (.ok a)) (second : p → Guarded e q (f a) z) : Guarded e (p ∧ q) (x >>= f) z := by
  rcases first with ⟨holds, rfl⟩ | ⟨fails, rfl⟩
  · rcases second holds with ⟨holds', same⟩ | ⟨fails, same⟩
    · exact Or.inl ⟨⟨holds, holds'⟩, same⟩
    · exact Or.inr ⟨fun both => fails both.2, same⟩
  · exact Or.inr ⟨fun both => fails both.1, rfl⟩

/-- The error is met exactly if the condition fails, where it is none of the other
computation. -/
theorem ne_error (guarded : Guarded e p x y) (other : y ≠ .error e) : x ≠ .error e ↔ p := by
  rcases guarded with ⟨holds, same⟩ | ⟨fails, same⟩
  · rw [same]
    exact iff_of_true other holds
  · exact iff_of_false (fun differ => differ same) fails

end Guarded

end Faults
