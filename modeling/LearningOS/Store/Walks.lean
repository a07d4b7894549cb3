import LearningOS.Store.Links
import Mathlib.Algebra.GroupWithZero.Nat
import Mathlib.Data.List.Perm.Subperm
import Mathlib.Data.Set.Finite.Basic

namespace Links
/-- A finite stretch of a walk. -/
inductive Stretch {α : Type} (next : α → Option α) : α → List α → Prop
  | last (a) : Stretch next a [a]
  | step {a b bs} : next a = some b → Stretch next b bs → Stretch next a (a :: bs)

/-- An element that a walk from it comes back to. -/
def OnCycle {α : Type} (next : α → Option α) (a : α) : Prop := ∃ b, next a = some b ∧ Reach next b a

/-- A walk that gains something at every element, and ends where there is no link or once
it has as much as it wants. -/
inductive Ends {α : Type} (next : α → Option α) (gain : α → Nat) (goal : Nat) : α → Nat → Prop
  | done {a n} : goal ≤ n → Ends next gain goal a n
  | stop {a n} : next a = none → Ends next gain goal a n
  | step {a b n} : next a = some b → Ends next gain goal b (n + gain a) → Ends next gain goal a n

variable {α : Type} {next : α → Option α} {gain : α → Nat} {goal n : Nat} {a b c d : α} {as bs : List α}

theorem Reach.trans (reach : Reach next a b) (later : Reach next b c) : Reach next a c :=
  Relation.ReflTransGen.trans reach later

namespace Path

/-- A path that ends contains all that is met from its first element on. -/
theorem reach_mem (path : Path next a as) (reach : Reach next a b) : b ∈ as := by
  induction reach with
  | refl =>
    obtain ⟨tail, rfl⟩ := path.head
    exact List.mem_cons_self
  | tail _ link ih => exact path.link_mem ih link

theorem mem_reach (path : Path next a as) (member : b ∈ as) : Reach next a b := by
  induction path with
  | @stop a _ =>
    rw [List.mem_singleton.mp member]
    exact .refl next a
  | @step a c cs link _ ih =>
    rcases List.mem_cons.mp member with rfl | later
    · exact .refl next _
    · exact .head link (ih later)

theorem not_cycle (path : Path next a as) (reach : Reach next a b) : ¬ OnCycle next b := by
  rintro ⟨c, link, back⟩
  obtain ⟨front, bs, _, rest⟩ := path.suffix (path.reach_mem reach)
  cases rest with
  | stop ends => simp [ends] at link
  | step link' later =>
    cases Option.some.inj (link.symm.trans link')
    exact (List.nodup_cons.mp (Path.step link later).nodup).1 (later.reach_mem back)

theorem ends (path : Path next a as) (n : Nat) : Ends next gain goal a n := by
  induction path generalizing n with
  | stop none => exact .stop none
  | step link _ ih => exact .step link (ih _)

end Path

namespace Stretch

/-- From an element of a stretch on, and what lies between. -/
theorem split (stretch : Stretch next b (as ++ a :: bs)) :
    Reach next b a ∧ Stretch next a (a :: bs) ∧ ∀ c ∈ as, Reach next b c ∧ ∃ d, next c = some d ∧ Reach next d a := by
  induction as generalizing b with
  | nil =>
    cases stretch with
    | last => exact ⟨.refl next _, .last _, by simp⟩
    | step link rest => exact ⟨.refl next _, .step link rest, by simp⟩
  | cons c as ih =>
    generalize whole : c :: as ++ a :: bs = all at stretch
    cases stretch with
    | last => simp at whole
    | step link rest =>
      obtain ⟨rfl, rfl⟩ := List.cons.inj whole
      obtain ⟨reach, tail, between⟩ := ih rest
      refine ⟨.head link reach, tail, fun e atE => ?_⟩
      rcases List.mem_cons.mp atE with rfl | later
      · exact ⟨.refl next _, _, link, reach⟩
      · obtain ⟨before, behind⟩ := between e later
        exact ⟨.head link before, behind⟩

/-- A stretch that meets an element twice goes round a cycle. -/
theorem nodup_or_cycle (stretch : Stretch next a as) : as.Nodup ∨ ∃ c, Reach next a c ∧ OnCycle next c := by
  induction stretch with
  | last a => exact Or.inl (List.nodup_singleton a)
  | @step a b bs link rest ih =>
    rcases ih with once | ⟨c, reach, cycle⟩
    · by_cases again : a ∈ bs
      · obtain ⟨front, back, rfl⟩ := List.append_of_mem again
        exact Or.inr ⟨a, .refl next a, b, link, rest.split.1⟩
      · exact Or.inl (List.nodup_cons.mpr ⟨again, once⟩)
    · exact Or.inr ⟨c, .head link reach, cycle⟩

theorem reach_mem (stretch : Stretch next a as) : ∀ c ∈ as, Reach next a c := by
  induction stretch with
  | last a =>
    intro c atC
    rw [List.mem_singleton.mp atC]
    exact .refl next a
  | @step a b bs link _ ih =>
    intro c atC
    rcases List.mem_cons.mp atC with rfl | later
    · exact .refl next _
    · exact .head link (ih c later)

/-- What a stretch gains is gained without a repetition, or a cycle gains something. -/
theorem shorten (stretch : Stretch next a as) (enough : goal ≤ n + (as.map gain).sum) :
    (∃ c, Reach next a c ∧ OnCycle next c ∧ 0 < gain c) ∨
      ∃ bs, Stretch next a bs ∧ bs.Nodup ∧ goal ≤ n + (bs.map gain).sum := by
  induction stretch generalizing n with
  | last a => exact Or.inr ⟨[a], .last a, List.nodup_singleton a, enough⟩
  | @step a b bs link _ ih =>
    rw [List.map_cons, List.sum_cons, ← Nat.add_assoc] at enough
    rcases ih enough with ⟨c, reach, cycle, some⟩ | ⟨ds, rest, once, enough'⟩
    · exact Or.inl ⟨c, .head link reach, cycle, some⟩
    · by_cases again : a ∈ ds
      · obtain ⟨front, back, rfl⟩ := List.append_of_mem again
        obtain ⟨reach, tail, between⟩ := rest.split
        by_cases gains : ∃ c ∈ a :: front, 0 < gain c
        · obtain ⟨c, atC, some⟩ := gains
          refine Or.inl ⟨c, ?_⟩
          rcases List.mem_cons.mp atC with rfl | later
          · exact ⟨.refl next c, ⟨b, link, reach⟩, some⟩
          · obtain ⟨before, d, link', behind⟩ := between c later
            exact ⟨.head link before, ⟨d, link', behind.trans (.head link before)⟩, some⟩
        · -- nothing is lost without the way round
          have none (c : α) (atC : c ∈ a :: front) : gain c = 0 := by
            by_contra some
            exact gains ⟨c, atC, Nat.pos_of_ne_zero some⟩
          have zero : (front.map gain).sum = 0 :=
            List.sum_eq_zero_iff_forall_eq_nat.mpr fun x atX => by
              obtain ⟨c, atC, rfl⟩ := List.mem_map.mp atX
              exact none c (List.mem_cons_of_mem a atC)
          refine Or.inr ⟨a :: back, tail, (List.nodup_append.mp once).2.1, ?_⟩
          rw [List.map_append, List.sum_append, zero, none a List.mem_cons_self] at enough'
          simpa using enough'
      · refine Or.inr ⟨a :: ds, .step link rest, List.nodup_cons.mpr ⟨again, once⟩, ?_⟩
        rwa [List.map_cons, List.sum_cons, ← Nat.add_assoc]

theorem ends (stretch : Stretch next a as) (enough : goal ≤ n + (as.map gain).sum) : Ends next gain goal a n := by
  induction stretch generalizing n with
  | last a =>
    cases link : next a with
    | none => exact .stop link
    | some b => exact .step link (.done (by simpa using enough))
  | step link _ ih =>
    rw [List.map_cons, List.sum_cons, ← Nat.add_assoc] at enough
    exact .step link (ih enough)

end Stretch

namespace Ends

theorem mono {m : Nat} (ends : Ends next gain goal a n) (more : n ≤ m) : Ends next gain goal a m := by
  induction ends generalizing m with
  | done enough => exact .done (Nat.le_trans enough more)
  | stop none => exact .stop none
  | step link _ ih => exact .step link (ih (Nat.add_le_add_right more _))

theorem reach (ends : Ends next gain goal b n) (reach : Reach next a b) : Ends next gain goal a n := by
  induction reach using Relation.ReflTransGen.head_induction_on with
  | refl => exact ends
  | head link _ ih => exact .step link (ih.mono (Nat.le_add_right _ _))

/-- A cycle on which something is gained is left in the end. -/
theorem cycle (cycle : OnCycle next a) (some : 0 < gain a) (n : Nat) : Ends next gain goal a n := by
  obtain ⟨b, link, back⟩ := cycle
  have rounds (k : Nat) : ∀ n, goal ≤ n + k → Ends next gain goal a n := by
    induction k with
    | zero => exact fun n enough => .done enough
    | succ k ih => exact fun n enough => .step link ((ih (n + gain a) (by omega)).reach back)
  exact rounds goal n (Nat.le_add_left goal n)

theorem stretch (ends : Ends next gain goal a n) :
    (∃ as, Path next a as) ∨ ∃ as, Stretch next a as ∧ goal ≤ n + (as.map gain).sum := by
  induction ends with
  | @done a n enough => exact Or.inr ⟨[a], .last a, Nat.le_add_right_of_le enough⟩
  | @stop a n none => exact Or.inl ⟨[a], .stop none⟩
  | @step a b n link _ ih =>
    rcases ih with ⟨as, path⟩ | ⟨as, stretch, enough⟩
    · exact Or.inl ⟨a :: as, .step link path⟩
    · refine Or.inr ⟨a :: as, .step link stretch, ?_⟩
      rwa [List.map_cons, List.sum_cons, ← Nat.add_assoc]

end Ends

/-- A walk ends if it has a last element, if it comes to a cycle on which something is
gained, or if it gains enough before anything is repeated; and only then. -/
theorem ends_iff : Ends next gain goal a n ↔
    (∃ as, Path next a as) ∨ (∃ c, Reach next a c ∧ OnCycle next c ∧ 0 < gain c) ∨
      ∃ as, Stretch next a as ∧ as.Nodup ∧ goal ≤ n + (as.map gain).sum := by
  constructor
  · intro ends
    rcases ends.stretch with path | ⟨as, stretch, enough⟩
    · exact Or.inl path
    · exact Or.inr (stretch.shorten enough)
  · rintro (⟨as, path⟩ | ⟨c, reach, cycle, some⟩ | ⟨as, stretch, _, enough⟩)
    · exact path.ends n
    · exact (Ends.cycle cycle some n).reach reach
    · exact stretch.ends enough

/-- A walk through finitely many elements has a last one, or comes to a cycle. -/
theorem path_iff_no_cycle_of_finite {s : Set α} (finite : s.Finite) (inside : ∀ b, Reach next a b → b ∈ s) :
    (∃ as, Path next a as) ↔ ∀ c, Reach next a c → ¬ OnCycle next c := by
  constructor
  · rintro ⟨as, path⟩ c reach
    exact path.not_cycle reach
  · intro acyclic
    by_contra endless
    have long (n : Nat) : ∀ b, Reach next a b → ∃ as, Stretch next b as ∧ as.length = n + 1 ∨ Path next b as := by
      induction n with
      | zero => exact fun b _ => ⟨[b], Or.inl ⟨.last b, rfl⟩⟩
      | succ n ih =>
        intro b reach
        cases link : next b with
        | none => exact ⟨[b], Or.inr (.stop link)⟩
        | some c =>
          obtain ⟨as, ⟨stretch, length⟩ | path⟩ := ih c (reach.tail link)
          · exact ⟨b :: as, Or.inl ⟨.step link stretch, by rw [List.length_cons, length]⟩⟩
          · exact ⟨b :: as, Or.inr (.step link path)⟩
    obtain ⟨as, ⟨stretch, length⟩ | path⟩ := long finite.toFinset.card a (.refl next a)
    · rcases stretch.nodup_or_cycle with once | ⟨c, reach, cycle⟩
      · have subset : as.Subperm finite.toFinset.toList :=
          List.subperm_of_subset once fun c atC =>
            Finset.mem_toList.mpr (finite.mem_toFinset.mpr (inside c (stretch.reach_mem c atC)))
        have short := subset.length_le
        rw [Finset.length_toList] at short
        omega
      · exact acyclic c reach cycle
    · exact endless ⟨as, path⟩

theorem path_iff_no_cycle {next : Nat → Option Nat} {a bound : Nat} (bounded : ∀ b, Reach next a b → b < bound) :
    (∃ as, Path next a as) ↔ ∀ c, Reach next a c → ¬ OnCycle next c :=
  path_iff_no_cycle_of_finite (Set.finite_lt_nat bound) bounded

end Links
