import LearningOS.Store.Strings
import LearningOS.User.Elf
import Mathlib.Logic.Relation

namespace LearningOS
open ByteStore

/-- The variables of `elf_prepare_stack` in its first loop: `ptrs` holds the entries of
`arg_ptrs` written so far, the last one first, and `stores` the addresses stored to. -/
structure StackState where
  mem : Bytes
  sp : Nat
  ptrs : List Nat
  stores : List Nat

/-- How the first loop ends: in a `strlen` that does not return, by the check, or behind the
last argument. -/
inductive PushEnd where
  | runs
  | full
  | done
  deriving DecidableEq

/-- What `elf_prepare_stack` leaves behind: the memory, the value it returns (none where it
does not), the value it gives `*out_esp`, and the addresses it has stored to. -/
structure PreparedStack where
  mem : Bytes
  ret : Option Int
  esp : Option Nat
  stores : List Nat

def argAt (m : Bytes) (argv i : Nat) : Nat := if argv ≠ 0 then load32 (wrapped m) (argv + 4 * i) else 0

/-- The bytes an argument takes with its NUL. -/
def argSize (m : Bytes) (arg : Nat) : Option Nat := if arg ≠ 0 then (strlen m arg).map (· + 1) else some 1

/-- The check of the loop fails for an argument of length `len`. -/
def NoRoom (top size sp len : Nat) : Prop := sp < u32 (sub32 top size + len)

instance (top size sp len : Nat) : Decidable (NoRoom top size sp len) := inferInstanceAs (Decidable (_ < _))

def pushArg (s : StackState) (arg len : Nat) : StackState :=
  let sp := sub32 s.sp len
  { mem := if arg ≠ 0 then memcpy s.mem sp arg len else store s.mem sp 0
    sp := sp
    ptrs := sp :: s.ptrs
    stores := s.stores ++ bytesAt sp len }

/-- The first loop, with `i` arguments still to be pushed. -/
def pushArgs (top size argv : Nat) : Nat → StackState → PushEnd × StackState
  | 0, s => (.done, s)
  | i + 1, s =>
    match argSize s.mem (argAt s.mem argv i) with
    | none => (.runs, s)
    | some n =>
      if NoRoom top size s.sp (u32 n) then (.full, s)
      else pushArgs top size argv i (pushArg s (argAt s.mem argv i) (u32 n))

/-- Words stored one behind another. -/
def storeWords (m : Bytes) (a : Nat) : List Nat → Bytes
  | [] => m
  | w :: ws => storeWords (store32 m (u32 a) w) (a + 4) ws

/-- What comes behind the first loop: the pointers with the null behind them and the word
`argc`. -/
def pushWords (s : StackState) (argc : Nat) : PreparedStack :=
  let argvPtr := sub32 (s.sp - s.sp % 4) ((argc + 1) * 4)
  let sp := sub32 argvPtr 4
  { mem := store32 (storeWords s.mem argvPtr (s.ptrs ++ [0])) sp argc
    ret := some 0
    esp := some sp
    stores := s.stores ++ (bytesAt argvPtr ((argc + 1) * 4) ++ bytesAt sp 4) }

/-- The end of the call, from the end of its first loop on. -/
def afterArgs (argc : Nat) : PushEnd × StackState → PreparedStack
  | (.runs, s) => ⟨s.mem, none, none, s.stores⟩
  | (.full, s) => ⟨s.mem, some (-1), none, s.stores⟩
  | (.done, s) => pushWords s argc

def elfPrepareStack (m : Bytes) (top size argv : Nat) (argc : Int) (outEsp : Nat) : PreparedStack :=
  if top = 0 ∨ size < 64 ∨ outEsp = 0 then ⟨m, some (-1), none, []⟩
  else if argc < 0 ∨ argc > 16 then ⟨m, some (-1), none, []⟩
  else afterArgs argc.toNat (pushArgs top size argv argc.toNat ⟨m, top, [], []⟩)

/-- The checks in front of the loop let the call pass. -/
def StackChecked (top size : Nat) (argc : Int) (outEsp : Nat) : Prop :=
  ¬(top = 0 ∨ size < 64 ∨ outEsp = 0) ∧ ¬(argc < 0 ∨ argc > 16)

/-- One round of the first loop. -/
def PushStep (top size argv : Nat) (s t : Nat × StackState) : Prop :=
  s.1 = t.1 + 1 ∧ ∃ n, argSize s.2.mem (argAt s.2.mem argv t.1) = some n ∧ ¬ NoRoom top size s.2.sp (u32 n) ∧
    t.2 = pushArg s.2 (argAt s.2.mem argv t.1) (u32 n)

/-- The argument `i` is refused by the check. -/
def Refused (top size argv i : Nat) (s : StackState) : Prop :=
  ∃ n, argSize s.mem (argAt s.mem argv i) = some n ∧ NoRoom top size s.sp (u32 n)

/-- The call comes to the point where `i` arguments are still to be pushed. -/
def StageReached (m : Bytes) (top size argv : Nat) (argc : Int) (outEsp i : Nat) (s : StackState) : Prop :=
  StackChecked top size argc outEsp ∧
    Relation.ReflTransGen (PushStep top size argv) (argc.toNat, ⟨m, top, [], []⟩) (i, s)

section
variable {m : Bytes} {top size argv outEsp i n : Nat} {argc : Int} {s t : StackState}

theorem pushArgs_of_steps (steps : Relation.ReflTransGen (PushStep top size argv) (n, s) (i, t)) :
    pushArgs top size argv n s = pushArgs top size argv i t := by
  generalize start : (n, s) = a at steps
  induction steps using Relation.ReflTransGen.head_induction_on generalizing n s with
  | refl =>
    cases start
    rfl
  | @head _ b step _ ih =>
    cases start
    obtain ⟨next, k, length, room, made⟩ := step
    obtain ⟨j, t'⟩ := b
    dsimp only at next length room made
    subst next
    subst made
    rw [pushArgs, length]
    exact (if_neg room).trans (ih rfl)

/-- The point at which the first loop ends. -/
theorem pushArgs_end (n : Nat) (s : StackState) :
    (∃ t, Relation.ReflTransGen (PushStep top size argv) (n, s) (0, t) ∧ pushArgs top size argv n s = (.done, t)) ∨
      (∃ i t, Relation.ReflTransGen (PushStep top size argv) (n, s) (i + 1, t) ∧ Refused top size argv i t ∧
        pushArgs top size argv n s = (.full, t)) ∨
      ∃ i t, Relation.ReflTransGen (PushStep top size argv) (n, s) (i + 1, t) ∧
        argSize t.mem (argAt t.mem argv i) = none ∧ pushArgs top size argv n s = (.runs, t) := by
  induction n generalizing s with
  | zero => exact Or.inl ⟨s, .refl, rfl⟩
  | succ n ih =>
    cases length : argSize s.mem (argAt s.mem argv n) with
    | none =>
      refine Or.inr (Or.inr ⟨n, s, .refl, length, ?_⟩)
      rw [pushArgs, length]
    | some k =>
      by_cases room : NoRoom top size s.sp (u32 k)
      · refine Or.inr (Or.inl ⟨n, s, .refl, ⟨k, length, room⟩, ?_⟩)
        rw [pushArgs, length]
        exact if_pos room
      · have step : PushStep top size argv (n + 1, s) (n, pushArg s (argAt s.mem argv n) (u32 k)) :=
          ⟨rfl, k, length, room, rfl⟩
        rw [pushArgs_of_steps (.single step)]
        rcases ih (pushArg s (argAt s.mem argv n) (u32 k)) with
          ⟨t, steps, result⟩ | ⟨i, t, steps, stop⟩ | ⟨i, t, steps, stop⟩
        · exact Or.inl ⟨t, .head step steps, result⟩
        · exact Or.inr (Or.inl ⟨i, t, .head step steps, stop⟩)
        · exact Or.inr (Or.inr ⟨i, t, .head step steps, stop⟩)

theorem Refused.pushArgs (refused : Refused top size argv i s) :
    pushArgs top size argv (i + 1) s = (.full, s) := by
  obtain ⟨k, length, room⟩ := refused
  rw [LearningOS.pushArgs, length]
  exact if_pos room

theorem pushSteps_stores {a b : Nat × StackState} (steps : Relation.ReflTransGen (PushStep top size argv) a b) :
    a.2.stores ⊆ b.2.stores := by
  induction steps with
  | refl => exact List.Subset.refl _
  | tail _ step ih =>
    obtain ⟨_, k, _, _, made⟩ := step
    rw [made]
    exact List.Subset.trans ih (List.subset_append_left _ _)

theorem pushSteps_ptrs {a b : Nat × StackState} (steps : Relation.ReflTransGen (PushStep top size argv) a b) :
    b.1 + b.2.ptrs.length = a.1 + a.2.ptrs.length := by
  induction steps with
  | refl => rfl
  | tail _ step ih =>
    obtain ⟨next, _, _, _, made⟩ := step
    rw [← ih, next, made]
    simp only [pushArg, List.length_cons]
    omega

/-- The points that a loop comes to behind its first round. -/
theorem pushSteps_cases {k : Nat} (length : argSize s.mem (argAt s.mem argv n) = some k)
    (steps : Relation.ReflTransGen (PushStep top size argv) (n + 1, s) (i, t)) :
    (i = n + 1 ∧ t = s) ∨
      Relation.ReflTransGen (PushStep top size argv) (n, pushArg s (argAt s.mem argv n) (u32 k)) (i, t) := by
  rcases Relation.ReflTransGen.cases_head steps with same | ⟨b, step, later⟩
  · cases same
    exact Or.inl ⟨rfl, rfl⟩
  · obtain ⟨next, k', length', _, made⟩ := step
    obtain ⟨j, s'⟩ := b
    dsimp only at next length' made
    obtain rfl : n = j := by omega
    cases Option.some.inj (length.symm.trans length')
    exact Or.inr (made ▸ later)

theorem pushSteps_done (steps : Relation.ReflTransGen (PushStep top size argv) (0, s) (i, t)) : i = 0 ∧ t = s := by
  rcases Relation.ReflTransGen.cases_head steps with same | ⟨b, step, _⟩
  · cases same
    exact ⟨rfl, rfl⟩
  · exact absurd step.1 (by simp)

end

end LearningOS
