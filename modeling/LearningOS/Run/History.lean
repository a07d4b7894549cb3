import Mathlib.Data.List.Basic

namespace History

variable {σ α : Type} {init : σ → Prop} {step : σ → α → σ → Prop}

/-- The runs of a system with their steps, each with the state it was taken in. The
latest step comes first. -/
inductive Run (init : σ → Prop) (step : σ → α → σ → Prop) : σ → List (σ × α) → Prop
  | start {s} : init s → Run init step s []
  | next {s s' a past} : Run init step s past → step s a s' → Run init step s' ((s, a) :: past)

/-- The steps from one state to another, the latest first. -/
inductive Path (step : σ → α → σ → Prop) : σ → List (σ × α) → σ → Prop
  | done (s : σ) : Path step s [] s
  | next {s t u a recent} : Path step s recent t → step t a u → Path step s ((t, a) :: recent) u

/-- What the latest step says on a question, if it says anything. -/
theorem findSome?_cons_ite {β γ : Type} {f : β → Option γ} {e : β} {past : List β} {p : Prop} [Decidable p] {x : γ}
    (here : f e = if p then some x else none) : (e :: past).findSome? f = if p then some x else past.findSome? f := by
  rw [List.findSome?_cons, here]
  by_cases holds : p
  · rw [if_pos holds, if_pos holds]
  · rw [if_neg holds, if_neg holds]

namespace Run
variable {s s' : σ} {a : α} {past recent : List (σ × α)}

/-- A property of states that the steps keep holds at the end of every run. -/
theorem holds {P : σ → Prop} (base : ∀ s, init s → P s) (kept : ∀ s a s', P s → step s a s' → P s')
    (run : Run init step s past) : P s := by
  induction run with
  | start begins => exact base _ begins
  | next _ here ih => exact kept _ _ _ ih here

/-- A run passes through each of its steps and goes on from there. -/
theorem split (run : Run init step s' (recent ++ (s, a) :: past)) :
    ∃ t, Run init step s past ∧ step s a t ∧ Path step t recent s' := by
  induction recent generalizing s' with
  | nil =>
    cases run with
    | next before here => exact ⟨s', before, here, .done s'⟩
  | cons e recent ih =>
    cases run with
    | next before here =>
      obtain ⟨t, start, first, path⟩ := ih before
      exact ⟨t, start, first, .next path here⟩

/-- A property of each state a run passes through, with the step that led there. -/
def Throughout (P : σ → Option (σ × α) → Prop) : σ → List (σ × α) → Prop
  | s, [] => P s none
  | s, e :: past => P s (some e) ∧ Throughout P e.1 past

/-- A property that a step keeps exactly if the step meets a condition holds throughout
a run exactly if all steps of the run meet it. -/
theorem throughout_iff {P : σ → Option (σ × α) → Prop} {C : σ × α → Prop} (base : ∀ s, init s → P s none)
    (exact : ∀ s a s' past last, Run init step s past → P s last → step s a s' → (P s' (some (s, a)) ↔ C (s, a)))
    (run : Run init step s past) : Throughout P s past ↔ ∀ e ∈ past, C e := by
  induction run with
  | start begins => simpa [Throughout] using base _ begins
  | @next s s' a past before here ih =>
    rw [List.forall_mem_cons, ← ih, Throughout]
    refine and_congr_left fun held => ?_
    have latest : ∃ last, P s last := by
      cases past with
      | nil => exact ⟨none, held⟩
      | cons e past => exact ⟨some e, held.1⟩
    obtain ⟨last, holds⟩ := latest
    exact exact s a s' past last before holds here

/-- A run can be computed, if every step that is computed may be taken. -/
theorem replay {exec : σ → α → Option σ} (sound : ∀ s a t, exec s a = some t → step s a t) {as : List α}
    (run : Run init step s past) (found : as.foldlM exec s = some s') :
    ∃ past', Run init step s' past' ∧ past'.map Prod.snd = as.reverse ++ past.map Prod.snd := by
  induction as generalizing s past with
  | nil =>
    cases Option.some.inj found
    exact ⟨past, run, rfl⟩
  | cons a as ih =>
    obtain ⟨t, first, rest⟩ := Option.bind_eq_some_iff.mp found
    obtain ⟨past', after, calls⟩ := ih (.next run (sound s a t first)) rest
    exact ⟨past', after, by simp [calls]⟩

end Run

/-- A property that the steps of a path keep, given what is known of each of them. -/
theorem Path.keeps {P : σ → Prop} {Q : σ × α → Prop} (kept : ∀ s a s', P s → Q (s, a) → step s a s' → P s')
    {s t : σ} {recent : List (σ × α)} (path : Path step s recent t) (known : ∀ e ∈ recent, Q e) (start : P s) :
    P t := by
  induction path with
  | done => exact start
  | next _ here ih =>
    have before := ih fun e member => known e (List.mem_cons_of_mem _ member)
    exact kept _ _ _ before (known _ List.mem_cons_self) here

/-- A path is followed by a second system that answers each of its steps, as far as is
known of them. -/
theorem Path.simulates {β : Type} {R : σ → β → Prop} {after : β → α → β} {Q : σ × α → Prop}
    (sim : ∀ s a s' b, R s b → Q (s, a) → step s a s' → R s' (after b a)) {s t : σ} {recent : List (σ × α)} {b : β}
    (path : Path step s recent t) (known : ∀ e ∈ recent, Q e) (start : R s b) :
    R t (recent.foldr (fun e b => after b e.2) b) := by
  induction path with
  | done => exact start
  | next _ here ih =>
    have before := ih fun e member => known e (List.mem_cons_of_mem _ member)
    exact sim _ _ _ _ before (known _ List.mem_cons_self) here

end History
