import Mathlib.Data.List.Nodup
import Mathlib.Data.List.Perm.Subperm
import Mathlib.Logic.Relation

namespace Links

/-- The elements met from `a` on by following links until one has none. -/
inductive Path {α : Type} (next : α → Option α) : α → List α → Prop
  | stop {a} : next a = none → Path next a [a]
  | step {a b bs} : next a = some b → Path next b bs → Path next a (a :: bs)

namespace Path
variable {α : Type} {next other : α → Option α} {a b : α} {as bs : List α}

theorem head (path : Path next a as) : ∃ tail, as = a :: tail := by
  cases path with
  | stop _ => exact ⟨[], rfl⟩
  | step _ rest => exact ⟨_, rfl⟩

theorem tail {c : α} (path : Path next a (c :: b :: bs)) : next a = some b ∧ Path next b (b :: bs) := by
  cases path with
  | step link rest =>
    obtain ⟨_, same⟩ := rest.head
    cases (List.cons.inj same).1
    exact ⟨link, rest⟩

theorem unique (path : Path next a as) (again : Path next a bs) : as = bs := by
  induction path generalizing bs with
  | stop ends =>
    cases again with
    | stop _ => rfl
    | step link _ => simp [ends] at link
  | step link _ ih =>
    cases again with
    | stop ends => simp [ends] at link
    | step link' rest =>
      cases Option.some.inj (link.symm.trans link')
      rw [ih rest]

/-- From every element of a path the rest of it is a path. -/
theorem suffix (path : Path next a as) (member : b ∈ as) : ∃ front bs, as = front ++ bs ∧ Path next b bs := by
  induction path with
  | @stop a ends =>
    cases List.mem_singleton.mp member
    exact ⟨[], [b], rfl, .stop ends⟩
  | @step a c cs link rest ih =>
    rcases List.mem_cons.mp member with rfl | later
    · exact ⟨[], b :: cs, rfl, .step link rest⟩
    · obtain ⟨front, bs, split, sub⟩ := ih later
      exact ⟨a :: front, bs, by rw [split]; rfl, sub⟩

/-- A path that ends meets nothing twice. -/
theorem nodup (path : Path next a as) : as.Nodup := by
  induction path with
  | stop _ => exact List.nodup_singleton _
  | @step a b bs link rest ih =>
    refine List.nodup_cons.mpr ⟨fun inside => ?_, ih⟩
    obtain ⟨front, cs, split, again⟩ := rest.suffix inside
    have same := (Path.step link rest).unique again
    have lengths := congrArg List.length split
    rw [← same, List.length_append, List.length_cons] at lengths
    omega

theorem length_le {next : Nat → Option Nat} {a n : Nat} {as : List Nat} (path : Path next a as)
    (bound : ∀ b ∈ as, b < n) : as.length ≤ n := by
  have inside : as.Subperm (List.range n) :=
    List.subperm_of_subset path.nodup fun b member => List.mem_range.mpr (bound b member)
  simpa only [List.length_range] using List.Subperm.length_le inside

/-- A path that ends contains the links of its elements. -/
theorem link_mem (path : Path next a as) {c : α} (member : b ∈ as) (link : next b = some c) : c ∈ as := by
  obtain ⟨front, bs, split, rest⟩ := path.suffix member
  cases rest with
  | stop ends => simp [ends] at link
  | step link' rest =>
    cases Option.some.inj (link.symm.trans link')
    obtain ⟨tail, rfl⟩ := rest.head
    simp [split]

/-- A path depends on the links of its elements only. -/
theorem congr (path : Path next a as) (same : ∀ c ∈ as, other c = next c) : Path other a as := by
  induction path with
  | @stop a ends => exact .stop ((same a List.mem_cons_self).trans ends)
  | @step a b bs link _ ih =>
    exact .step ((same a List.mem_cons_self).trans link) (ih fun c member => same c (List.mem_cons_of_mem a member))

end Path

/-- What is met from an element on, itself included. -/
def Reach {α : Type} (next : α → Option α) : α → α → Prop := Relation.ReflTransGen fun a b => next a = some b

section
variable {α : Type} {next next' : α → Option α} {a b c : α}

theorem Reach.refl (next : α → Option α) (a : α) : Reach next a a := Relation.ReflTransGen.refl

theorem Reach.head (link : next a = some c) (reach : Reach next c b) : Reach next a b :=
  Relation.ReflTransGen.head link reach

theorem Reach.tail (reach : Reach next a b) (link : next b = some c) : Reach next a c :=
  Relation.ReflTransGen.tail reach link

theorem Reach.mono (reach : Reach next' a b) (more : ∀ c d, next' c = some d → next c = some d) : Reach next a b := by
  induction reach with
  | refl => exact .refl next a
  | tail _ link ih => exact ih.tail (more _ _ link)

/-- Every element met after the first is met behind its link, where that link is not used
again. -/
theorem reach_cut (cut : next' a = none) (same : ∀ c, c ≠ a → next' c = next c) :
    Reach next a b ↔ b = a ∨ ∃ d, next a = some d ∧ Reach next' d b := by
  constructor
  · intro reach
    induction reach with
    | refl => exact Or.inl rfl
    | @tail c e _ link ih =>
      by_cases again : c = a
      · subst again
        exact Or.inr ⟨e, link, .refl next' e⟩
      · rcases ih with first | ⟨d, start, later⟩
        · exact absurd first again
        · exact Or.inr ⟨d, start, later.tail ((same c again).trans link)⟩
  · rintro (rfl | ⟨d, start, later⟩)
    · exact .refl next b
    · refine .head start (later.mono fun c e link => ?_)
      by_cases again : c = a
      · rw [again, cut] at link
        simp at link
      · rwa [same c again] at link

end

end Links
