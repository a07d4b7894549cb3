import Mathlib.Data.List.Basic
import Mathlib.Data.List.Find
import Mathlib.Logic.Function.Basic

namespace Priority

/-- What a server is doing for which line, on a request or because of a trap. -/
inductive Phase (L : Type)
  | idle
  | entered (trap : Bool) (n : L)
  | called (trap : Bool) (n : L)
  | returned
deriving DecidableEq

/-- A server of lines: those with a request, the handlers, whether it may be interrupted, whether
the code that was left may be, and the handlers that were called for a request and by a trap. -/
structure Server (L H : Type) where
  pending : L → Bool
  handlers : L → Option H
  enabled : Bool
  saved : Bool
  phase : Phase L
  served : List (L × Option H)
  trapped : List (L × Option H)

/-- A request, what idle code may do, and the steps of an interrupt. A trap is idle code that
interrupts itself; `switched` is the flag of the code that goes on, where that is not the code
that was left. -/
inductive Event (L H : Type)
  | raise (n : L)
  | flag (enabled : Bool)
  | register (n : Option L) (h : H)
  | accept
  | trap (n : L)
  | call
  | finish
  | resume (switched : Option Bool)

variable {L H : Type} [DecidableEq L]

namespace Server

/-- The first line, by the order of priority, that may be served and has a request. -/
def next (order : List L) (allowed : L → Bool) (s : Server L H) : Option L :=
  order.find? fun n => s.pending n && allowed n

def exec (order : List L) (allowed : L → Bool) (s : Server L H) : Event L H → Option (Server L H)
  | .raise n => some { s with pending := if n ∈ order then Function.update s.pending n true else s.pending }
  | .flag enabled =>
    match s.phase with
    | .idle => some { s with enabled }
    | _ => none
  | .register n h =>
    match s.phase with
    | .idle =>
      some { s with handlers := match n with | some n => Function.update s.handlers n (some h) | none => s.handlers }
    | _ => none
  | .accept =>
    match s.phase with
    | .idle =>
      if s.enabled then
        (s.next order allowed).map fun n =>
          { s with
            pending := Function.update s.pending n false, phase := .entered false n, saved := true, enabled := false }
      else none
    | _ => none
  | .trap n =>
    match s.phase with
    | .idle => some { s with phase := .entered true n, saved := s.enabled, enabled := false }
    | _ => none
  | .call =>
    match s.phase with
    | .entered false n => some { s with phase := .called false n, served := s.served ++ [(n, s.handlers n)] }
    | .entered true n => some { s with phase := .called true n, trapped := s.trapped ++ [(n, s.handlers n)] }
    | _ => none
  | .finish =>
    match s.phase with
    | .called _ _ => some { s with phase := .returned }
    | _ => none
  | .resume switched =>
    match s.phase with
    | .returned => some { s with phase := .idle, enabled := switched.getD s.saved }
    | _ => none

/-- The state after some events, if they can all happen. -/
def run (order : List L) (allowed : L → Bool) (s : Server L H) (events : List (Event L H)) : Option (Server L H) :=
  events.foldlM (exec order allowed) s

variable {order : List L} {allowed : L → Bool} {s s' : Server L H} {n : L} {e : Event L H}

/-- A line has a request, or its handler is about to be called for it, or was called since `k`
calls. -/
def Owed (n : L) (k : Nat) (s : Server L H) : Prop :=
  s.pending n = true ∨ s.phase = .entered false n ∨ ∃ h, (n, h) ∈ s.served.drop k

omit [DecidableEq L] in
theorem next_spec (hit : s.next order allowed = some n) : n ∈ order ∧ s.pending n = true ∧ allowed n = true := by
  have both := List.find?_some hit
  simp only [Bool.and_eq_true] at both
  exact ⟨List.mem_of_find?_eq_some hit, both⟩

/-- What one event can do. -/
theorem exec_cases (step : s.exec order allowed e = some s') :
    (∃ n, e = .raise n ∧ s' = { s with pending := if n ∈ order then Function.update s.pending n true else s.pending }) ∨
    (∃ b handlers, s.phase = .idle ∧ (∀ n, e ≠ .raise n ∧ e ≠ .trap n) ∧ s' = { s with enabled := b, handlers }) ∨
    (∃ n, e = .accept ∧ s.phase = .idle ∧ s.next order allowed = some n ∧
      s' = { s with
        pending := Function.update s.pending n false, phase := .entered false n, saved := true, enabled := false }) ∨
    (∃ n, e = .trap n ∧ s.phase = .idle ∧
      s' = { s with phase := .entered true n, saved := s.enabled, enabled := false }) ∨
    (∃ n, e = .call ∧ s.phase = .entered false n ∧
      s' = { s with phase := .called false n, served := s.served ++ [(n, s.handlers n)] }) ∨
    (∃ n, e = .call ∧ s.phase = .entered true n ∧
      s' = { s with phase := .called true n, trapped := s.trapped ++ [(n, s.handlers n)] }) ∨
    (∃ trap n, e = .finish ∧ s.phase = .called trap n ∧ s' = { s with phase := .returned }) ∨
    ∃ switched, e = .resume switched ∧ s.phase = .returned ∧
      s' = { s with phase := .idle, enabled := switched.getD s.saved } := by
  obtain ⟨pending, handlers, enabled, saved, phase, served, trapped⟩ := s
  cases e with
  | raise n => exact .inl ⟨n, rfl, (Option.some.inj step).symm⟩
  | flag b =>
    cases phase with
    | idle => exact .inr (.inl ⟨b, handlers, rfl, by simp, (Option.some.inj step).symm⟩)
    | _ => cases step
  | register n h =>
    cases phase with
    | idle => exact .inr (.inl ⟨enabled, _, rfl, by simp, (Option.some.inj step).symm⟩)
    | _ => cases step
  | accept =>
    cases phase with
    | idle =>
      simp only [exec] at step
      split at step
      · obtain ⟨n, hit, same⟩ := Option.map_eq_some_iff.mp step
        exact .inr (.inr (.inl ⟨n, rfl, rfl, hit, same.symm⟩))
      · cases step
    | _ => cases step
  | trap n =>
    cases phase with
    | idle => exact .inr (.inr (.inr (.inl ⟨n, rfl, rfl, (Option.some.inj step).symm⟩)))
    | _ => cases step
  | call =>
    cases phase with
    | entered trap n =>
      cases trap with
      | false => exact .inr (.inr (.inr (.inr (.inl ⟨n, rfl, rfl, (Option.some.inj step).symm⟩))))
      | true => exact .inr (.inr (.inr (.inr (.inr (.inl ⟨n, rfl, rfl, (Option.some.inj step).symm⟩)))))
    | _ => cases step
  | finish =>
    cases phase with
    | called trap n =>
      exact .inr (.inr (.inr (.inr (.inr (.inr (.inl ⟨trap, n, rfl, rfl, (Option.some.inj step).symm⟩))))))
    | _ => cases step
  | resume switched =>
    cases phase with
    | returned =>
      exact .inr (.inr (.inr (.inr (.inr (.inr (.inr ⟨switched, rfl, rfl, (Option.some.inj step).symm⟩))))))
    | _ => cases step

/-- The calls of handlers are never taken back. -/
theorem exec_served (step : s.exec order allowed e = some s') : s.served <+: s'.served := by
  obtain ⟨n, rfl, rfl⟩ | ⟨b, handlers, _, _, rfl⟩ | ⟨n, rfl, _, _, rfl⟩ | ⟨n, rfl, _, rfl⟩ | ⟨n, rfl, _, rfl⟩ |
    ⟨n, rfl, _, rfl⟩ | ⟨trap, n, rfl, _, rfl⟩ | ⟨switched, rfl, _, rfl⟩ := exec_cases step
  · exact List.prefix_rfl
  · exact List.prefix_rfl
  · exact List.prefix_rfl
  · exact List.prefix_rfl
  · exact List.prefix_append _ _
  · exact List.prefix_rfl
  · exact List.prefix_rfl
  · exact List.prefix_rfl

omit [DecidableEq L] in
/-- What is owed, but not called for just now, is owed as long as the request and the calls stay. -/
theorem Owed.kept {k : Nat} (owed : Owed n k s) (phase : s.phase ≠ .entered false n)
    (pending : s'.pending n = s.pending n) (served : s'.served = s.served) : Owed n k s' := by
  rcases owed with waits | due | later
  · exact Or.inl (pending.trans waits)
  · exact absurd due phase
  · exact Or.inr (Or.inr (served ▸ later))

/-- A request is kept until its line is served. -/
theorem Owed.step {k : Nat} (owed : Owed n k s) (old : k ≤ s.served.length)
    (step : s.exec order allowed e = some s') : Owed n k s' := by
  obtain ⟨m, rfl, rfl⟩ | ⟨b, handlers, _, _, rfl⟩ | ⟨m, rfl, idle, _, rfl⟩ | ⟨m, rfl, idle, rfl⟩ |
    ⟨m, rfl, entered, rfl⟩ | ⟨m, rfl, entered, rfl⟩ | ⟨trap, m, rfl, called, rfl⟩ | ⟨switched, rfl, returned, rfl⟩ :=
    exec_cases step
  · refine owed.imp_left fun pending => ?_
    change (if m ∈ order then Function.update s.pending m true else s.pending) n = true
    split
    · rw [Function.update_apply]
      split
      · rfl
      · exact pending
    · exact pending
  · exact owed
  · by_cases same : n = m
    · exact Or.inr (Or.inl (same ▸ rfl))
    · exact owed.kept (by simp [idle]) (Function.update_of_ne same false s.pending) rfl
  · exact owed.kept (by simp [idle]) rfl rfl
  · rcases owed with pending | waits | ⟨h, called⟩
    · exact Or.inl pending
    · rw [entered] at waits
      cases waits
      refine Or.inr (Or.inr ⟨s.handlers n, ?_⟩)
      rw [List.drop_append_of_le_length old]
      exact List.mem_append_right _ (List.mem_singleton_self _)
    · refine Or.inr (Or.inr ⟨h, ?_⟩)
      rw [List.drop_append_of_le_length old]
      exact List.mem_append_left _ called
  · exact owed.kept (by simp [entered]) rfl rfl
  · exact owed.kept (by simp [called]) rfl rfl
  · exact owed.kept (by simp [returned]) rfl rfl

theorem Owed.run {k : Nat} {events : List (Event L H)} (owed : Owed n k s) (old : k ≤ s.served.length)
    (run : s.run order allowed events = some s') : Owed n k s' := by
  induction events generalizing s with
  | nil =>
    cases Option.some.inj run
    exact owed
  | cons e events ih =>
    obtain ⟨t, step, rest⟩ := Option.bind_eq_some_iff.mp run
    exact ih (owed.step old step) (old.trans (exec_served step).length_le) rest

/-- After a request on a line, either it is still there, or its handler is about to be
called, or has been called since. -/
theorem request_kept {before after : List (Event L H)} (member : n ∈ order)
    (run : s.run order allowed (before ++ .raise n :: after) = some s') :
    ∃ t, s.run order allowed before = some t ∧ Owed n t.served.length s' := by
  rw [Server.run, List.foldlM_append] at run
  obtain ⟨t, first, rest⟩ := Option.bind_eq_some_iff.mp run
  rw [List.foldlM_cons] at rest
  obtain ⟨u, step, last⟩ := Option.bind_eq_some_iff.mp rest
  cases Option.some.inj step
  have owed : Owed n t.served.length
      { t with pending := if n ∈ order then Function.update t.pending n true else t.pending } := by
    refine Or.inl ?_
    rw [if_pos member]
    exact Function.update_self n true t.pending
  exact ⟨t, first, owed.run le_rfl last⟩

/-- The lines that were served, or are about to be, may be served, and each of these calls
answers a request of its own; the other calls are those of the traps. -/
structure Fair (order : List L) (allowed : L → Bool) (requests traps : L → Nat) (s : Server L H) : Prop where
  entered : ∀ n, s.phase = .entered false n → n ∈ order ∧ allowed n = true
  served : ∀ c ∈ s.served, c.1 ∈ order ∧ allowed c.1 = true
  answers : ∀ n, s.served.countP (fun c => c.1 = n) + (decide (s.phase = .entered false n)).toNat +
    (s.pending n).toNat ≤ requests n
  traps : ∀ n, s.trapped.countP (fun c => c.1 = n) + (decide (s.phase = .entered true n)).toNat = traps n

/-- How often a line was requested. -/
def requests (events : List (Event L H)) (n : L) : Nat :=
  events.countP fun e => match e with | .raise m => decide (m = n) | _ => false

/-- How often a trap called for a line. -/
def traps (events : List (Event L H)) (n : L) : Nat :=
  events.countP fun e => match e with | .trap m => decide (m = n) | _ => false

theorem traps_other (other : ∀ m, e ≠ .trap m) (n : L) : traps [e] n = 0 := by
  cases e with
  | trap m => exact absurd rfl (other m)
  | _ => rfl

/-- An event adds to the calls for a line, those that are due among them, at most the request it is. -/
theorem answers_step (step : s.exec order allowed e = some s') (n : L) :
    s'.served.countP (fun c => c.1 = n) + (decide (s'.phase = .entered false n)).toNat + (s'.pending n).toNat ≤
      s.served.countP (fun c => c.1 = n) + (decide (s.phase = .entered false n)).toNat + (s.pending n).toNat +
        requests [e] n := by
  obtain ⟨m, rfl, rfl⟩ | ⟨b, handlers, _, _, rfl⟩ | ⟨m, rfl, idle, hit, rfl⟩ | ⟨m, rfl, idle, rfl⟩ |
    ⟨m, rfl, entered, rfl⟩ | ⟨m, rfl, entered, rfl⟩ | ⟨trap, m, rfl, called, rfl⟩ | ⟨switched, rfl, returned, rfl⟩ :=
    exec_cases step
  · rw [Nat.add_assoc (_ + _)]
    refine Nat.add_le_add_left ?_ _
    by_cases same : m = n
    · subst same
      have one : requests [Event.raise (H := H) m] m = 1 := by simp [requests]
      rw [one]
      exact (Bool.toNat_le _).trans (Nat.le_add_left 1 _)
    · refine Nat.le_add_right_of_le (le_of_eq (congrArg Bool.toNat ?_))
      split
      · exact Function.update_of_ne (Ne.symm same) true s.pending
      · rfl
  · exact Nat.le_add_right _ _
  · refine Nat.le_add_right_of_le ?_
    rw [idle]
    dsimp only
    by_cases same : n = m
    · subst same
      simp [(next_spec hit).2.1]
    · rw [Function.update_of_ne same]
      simp [Ne.symm same]
  · refine Nat.le_add_right_of_le ?_
    rw [idle]
    simp
  · refine Nat.le_add_right_of_le ?_
    rw [entered]
    dsimp only
    rw [List.countP_append]
    by_cases same : m = n
    · simp [same]
    · simp [same]
  · refine Nat.le_add_right_of_le ?_
    rw [entered]
    simp
  · refine Nat.le_add_right_of_le ?_
    rw [called]
    simp
  · refine Nat.le_add_right_of_le ?_
    rw [returned]
    simp

/-- An event adds to the calls by traps, the one that is due among them, the trap it is. -/
theorem traps_step (step : s.exec order allowed e = some s') (n : L) :
    s'.trapped.countP (fun c => c.1 = n) + (decide (s'.phase = .entered true n)).toNat =
      s.trapped.countP (fun c => c.1 = n) + (decide (s.phase = .entered true n)).toNat + traps [e] n := by
  obtain ⟨m, rfl, rfl⟩ | ⟨b, handlers, _, other, rfl⟩ | ⟨m, rfl, idle, _, rfl⟩ | ⟨m, rfl, idle, rfl⟩ |
    ⟨m, rfl, entered, rfl⟩ | ⟨m, rfl, entered, rfl⟩ | ⟨trap, m, rfl, called, rfl⟩ | ⟨switched, rfl, returned, rfl⟩ :=
    exec_cases step
  · rfl
  · rw [traps_other fun n => (other n).2]
    rfl
  · rw [idle]
    simp [traps]
  · rw [idle]
    by_cases same : m = n
    · simp [traps, same]
    · simp [traps, same]
  · rw [entered]
    simp [traps]
  · rw [entered]
    dsimp only
    rw [List.countP_append]
    by_cases same : m = n
    · simp [traps, same]
    · simp [traps, same]
  · rw [called]
    simp [traps]
  · rw [returned]
    simp [traps]

theorem Fair.step {asked traps : L → Nat} (fair : Fair order allowed asked traps s)
    (step : s.exec order allowed e = some s') :
    Fair order allowed (fun n => asked n + requests [e] n) (fun n => traps n + Server.traps [e] n) s' := by
  have answers (n : L) := (answers_step step n).trans (Nat.add_le_add_right (fair.answers n) _)
  have trapped (n : L) := (traps_step step n).trans (congrArg (· + Server.traps [e] n) (fair.traps n))
  obtain ⟨m, rfl, rfl⟩ | ⟨b, handlers, _, _, rfl⟩ | ⟨m, rfl, _, hit, rfl⟩ | ⟨m, rfl, _, rfl⟩ | ⟨m, rfl, atM, rfl⟩ |
    ⟨m, rfl, _, rfl⟩ | ⟨trap, m, rfl, _, rfl⟩ | ⟨switched, rfl, _, rfl⟩ := exec_cases step
  · exact ⟨fair.entered, fair.served, answers, trapped⟩
  · exact ⟨fair.entered, fair.served, answers, trapped⟩
  · refine ⟨fun n same => ?_, fair.served, answers, trapped⟩
    cases same
    exact (next_spec hit).imp_right And.right
  · exact ⟨fun n same => (by cases same), fair.served, answers, trapped⟩
  · refine ⟨fun n same => (by cases same), fun c member => ?_, answers, trapped⟩
    rcases List.mem_append.mp member with old | new
    · exact fair.served c old
    · cases List.mem_singleton.mp new
      exact fair.entered m atM
  · exact ⟨fun n same => (by cases same), fair.served, answers, trapped⟩
  · exact ⟨fun n same => (by cases same), fair.served, answers, trapped⟩
  · exact ⟨fun n same => (by cases same), fair.served, answers, trapped⟩

theorem countP_cons_add {α : Type} (p : α → Bool) (k : Nat) (a : α) (l : List α) :
    k + [a].countP p + l.countP p = k + (a :: l).countP p := by
  rw [Nat.add_assoc, List.countP_cons, List.countP_cons, List.countP_nil]
  omega

theorem Fair.run {asked traps : L → Nat} {events : List (Event L H)} (fair : Fair order allowed asked traps s)
    (run : s.run order allowed events = some s') :
    Fair order allowed (fun n => asked n + requests events n) (fun n => traps n + Server.traps events n) s' := by
  induction events generalizing s asked traps with
  | nil =>
    cases Option.some.inj run
    exact fair
  | cons e events ih =>
    obtain ⟨t, step, rest⟩ := Option.bind_eq_some_iff.mp run
    have after := ih (fair.step step) rest
    simpa only [requests, Server.traps, countP_cons_add] using after

/-- One interrupt. -/
def interrupt : List (Event L H) := [.accept, .call, .finish, .resume none]

/-- Where nothing else happens, the open lines with a request are served one after the
other, by their priority. -/
theorem drain (once : order.Nodup) (wanted : List L) (idle : s.phase = .idle) (enabled : s.enabled = true)
    (all : order.filter (fun n => s.pending n && allowed n) = wanted) :
    ∃ saved, s.run order allowed (wanted.flatMap fun _ => interrupt) =
      some { s with
        saved
        pending := fun n => s.pending n && decide (n ∉ wanted)
        served := s.served ++ wanted.map fun n => (n, s.handlers n) } := by
  induction wanted generalizing s with
  | nil => exact ⟨s.saved, by simp [Server.run]⟩
  | cons m rest ih =>
    obtain ⟨pending, handlers, flag, saved, phase, served, trapped⟩ := s
    obtain rfl : phase = .idle := idle
    obtain rfl : flag = true := enabled
    dsimp only at all ⊢
    have hit : order.find? (fun n => pending n && allowed n) = some m := by
      rw [← List.head?_filter, all]
      rfl
    have later : order.filter (fun n => Function.update pending m false n && allowed n) = rest := by
      have fresh : m ∉ rest := (List.nodup_cons.mp (all ▸ once.filter _)).1
      have both : (fun n => Function.update pending m false n && allowed n) =
          fun n => decide (n ≠ m) && (pending n && allowed n) := by
        funext n
        rw [Function.update_apply]
        by_cases same : n = m
        · simp [same]
        · simp [same]
      rw [both, ← List.filter_filter, all, List.filter_cons_of_neg (by simp)]
      refine List.filter_eq_self.mpr fun n member => ?_
      simp only [decide_eq_true_eq]
      rintro rfl
      exact fresh member
    obtain ⟨last, after⟩ := ih
      (s := ⟨Function.update pending m false, handlers, true, true, .idle, served ++ [(m, handlers m)], trapped⟩) rfl rfl
      later
    have one : run order allowed ⟨pending, handlers, true, saved, .idle, served, trapped⟩ interrupt =
        some ⟨Function.update pending m false, handlers, true, true, .idle, served ++ [(m, handlers m)], trapped⟩ := by
      simp [run, interrupt, exec, next, hit]
    refine ⟨last, ?_⟩
    rw [List.flatMap_cons, run, List.foldlM_append, ← run, one]
    refine after.trans ?_
    have left (n : L) : (Function.update pending m false n && !decide (n ∈ rest)) =
        (pending n && (!decide (n = m) && !decide (n ∈ rest))) := by
      rw [Function.update_apply]
      by_cases same : n = m
      · simp [same]
      · simp [same]
    simp [left]

end Server

end Priority
