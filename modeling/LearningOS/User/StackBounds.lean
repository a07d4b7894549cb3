import LearningOS.User.PrepareStack
import LearningOS.User.ElfRejects

namespace LearningOS
open ByteStore

/-- The address lies on the stack. -/
def WithinStack (top size a : Nat) : Prop := top - size ≤ a ∧ a < top

/-- The arguments do not fit, in unbounded integers: at a point the call comes to, the next
argument, or in the end the pointers and `argc`, take more than is left. -/
def TooLong (m : Bytes) (top size argv : Nat) (argc : Int) (outEsp : Nat) : Prop :=
  (∃ i s n, StageReached m top size argv argc outEsp (i + 1) s ∧ argSize s.mem (argAt s.mem argv i) = some n ∧
      s.sp < top - size + n) ∨
    ∃ s, StageReached m top size argv argc outEsp 0 s ∧ s.sp - s.sp % 4 < top - size + (argc.toNat + 2) * 4

/-- The next argument ends below the end of the address space when it is put at the bottom of
the stack, or it takes the whole address space and a later one is refused. -/
def ArgumentFits (top size argv i : Nat) (s : StackState) : Prop :=
  ∀ n, argSize s.mem (argAt s.mem argv i) = some n → top - size + n < 2 ^ 32 ∨
    n = 2 ^ 32 ∧ ∃ j t, Relation.ReflTransGen (PushStep top size argv) (i + 1, s) (j + 1, t) ∧ Refused top size argv j t

section
variable {m : Bytes} {top size argv outEsp i n sp len : Nat} {argc : Int} {s t : StackState}

theorem bytesAt_append (a n k : Nat) : bytesAt a (n + k) = bytesAt a n ++ bytesAt (a + n) k := by
  simp only [bytesAt, List.range_add, List.map_append, List.map_map, Function.comp_def, Nat.add_assoc]

/-- Bytes put below the stack pointer lie on the stack exactly if there is room for them. -/
theorem bytesAt_withinStack_iff (word : top < 2 ^ 32) (below : sp ≤ top) (short : len < 2 ^ 32) (some : 0 < len) :
    (∀ a ∈ bytesAt (sub32 sp len) len, WithinStack top size a) ↔ top - size + len ≤ sp := by
  constructor
  · intro inside
    by_cases wraps : sp < len
    · -- the byte at the end of the address space lies above the stack
      have last := inside (2 ^ 32 - 1) (mem_bytesAt.mpr ⟨len - sp - 1, by omega, by unfold sub32 u32; omega⟩)
      unfold WithinStack at last
      omega
    · have first := inside (sp - len)
        (mem_bytesAt.mpr ⟨0, some, by rw [sub32_of_le (by omega) (by omega), u32_of_lt (by omega)]; rfl⟩)
      unfold WithinStack at first
      omega
  · intro room a member
    obtain ⟨j, inside, rfl⟩ := mem_bytesAt.mp member
    rw [sub32_of_le (by omega) (by omega), u32_of_lt (by omega)]
    unfold WithinStack
    omega

/-- The pointers and `argc` are stored to one run of words below the arguments. -/
theorem mem_pushWords_stores {argc : Nat} (few : argc ≤ 16) (s : StackState) (a : Nat) :
    a ∈ (pushWords s argc).stores ↔
      a ∈ s.stores ∨ a ∈ bytesAt (sub32 (s.sp - s.sp % 4) ((argc + 2) * 4)) ((argc + 2) * 4) := by
  have lowest : sub32 (sub32 (s.sp - s.sp % 4) ((argc + 1) * 4)) 4 = sub32 (s.sp - s.sp % 4) ((argc + 2) * 4) := by
    unfold sub32 u32
    omega
  have above : bytesAt (sub32 (s.sp - s.sp % 4) ((argc + 2) * 4) + 4) ((argc + 1) * 4) =
      bytesAt (sub32 (s.sp - s.sp % 4) ((argc + 1) * 4)) ((argc + 1) * 4) := by
    rw [← Nat.add_zero (sub32 (s.sp - s.sp % 4) ((argc + 1) * 4)), sub32, sub32, bytesAt_u32, bytesAt_u32]
    refine List.map_congr_left fun j _ => ?_
    unfold u32
    omega
  rw [show (argc + 2) * 4 = 4 + (argc + 1) * 4 by omega, bytesAt_append,
    ← show (argc + 2) * 4 = 4 + (argc + 1) * 4 by omega,
    above]
  simp only [pushWords, lowest, List.mem_append]
  exact or_congr Iff.rfl or_comm

theorem pushWords_withinStack_iff (word : top < 2 ^ 32) {argc : Nat} (few : argc ≤ 16) (below : s.sp ≤ top) :
    (∀ a ∈ (pushWords s argc).stores, WithinStack top size a) ↔
      (∀ a ∈ s.stores, WithinStack top size a) ∧ top - size + (argc + 2) * 4 ≤ s.sp - s.sp % 4 := by
  simp only [mem_pushWords_stores few, or_imp, forall_and]
  exact and_congr Iff.rfl (bytesAt_withinStack_iff word (by omega) (by omega) (by omega))

theorem argSize_bounds {arg : Nat} (length : argSize m arg = some n) : 0 < n ∧ n ≤ 2 ^ 32 := by
  unfold argSize at length
  by_cases null : arg = 0
  · rw [if_neg (by simpa using null)] at length
    cases length
    omega
  · rw [if_pos null] at length
    obtain ⟨k, found, rfl⟩ := Option.map_eq_some_iff.mp length
    have short := ((strlen_eq_some_iff null).mp found).1
    omega

theorem u32_lt (n : Nat) : u32 n < 2 ^ 32 := Nat.mod_lt n (by decide)

theorem u32_sub32 (a b : Nat) : u32 (sub32 a b) = sub32 a b := u32_of_lt (u32_lt _)

/-- A round that stores on the stack alone leaves the stack pointer there. -/
theorem pushArg_withinStack (word : top < 2 ^ 32) (lower : top - size ≤ s.sp) (upper : s.sp ≤ top)
    (short : len < 2 ^ 32)
    {arg : Nat} (inside : ∀ a ∈ (pushArg s arg len).stores, WithinStack top size a) :
    top - size ≤ (pushArg s arg len).sp ∧ (pushArg s arg len).sp ≤ top := by
  have written : ∀ a ∈ bytesAt (sub32 s.sp len) len, WithinStack top size a :=
    fun a member => inside a (List.mem_append_right _ member)
  simp only [pushArg]
  rcases Nat.eq_zero_or_pos len with rfl | some
  · rw [sub32_of_le (Nat.zero_le _) (by omega)]
    omega
  · have room := (bytesAt_withinStack_iff word upper short some).mp written
    rw [sub32_of_le (by omega) (by omega)]
    omega

/-- A round in which the sum of the check does not wrap, or which pushes nothing, stores on
the stack alone. -/
theorem PushStep.withinStack (word : top < 2 ^ 32) (room : size ≤ top) {a b : Nat × StackState}
    (step : PushStep top size argv a b) (upper : a.2.sp ≤ top)
    (fits : ArgumentFits top size argv b.1 a.2) (before : ∀ x ∈ a.2.stores, WithinStack top size x) :
    ∀ x ∈ b.2.stores, WithinStack top size x := by
  obtain ⟨_, n, length, passes, made⟩ := step
  have bounds := argSize_bounds length
  rw [made]
  intro x member
  rcases List.mem_append.mp member with old | new
  · exact before x old
  · rcases fits n length with below | ⟨whole, _⟩
    · rw [u32_of_lt (by omega)] at passes new
      rw [NoRoom, sub32_of_le room word, u32_of_lt below, Nat.not_lt] at passes
      exact (bytesAt_withinStack_iff word upper (by omega) bounds.1).mpr passes x new
    · rw [whole] at new
      cases new

theorem StageReached.withinStack_of_fits (word : top < 2 ^ 32) (room : size ≤ top)
    (fits : ∀ i s, StageReached m top size argv argc outEsp (i + 1) s → ArgumentFits top size argv i s)
    (reached : StageReached m top size argv argc outEsp i s) :
    (top - size ≤ s.sp ∧ s.sp ≤ top) ∧ ∀ a ∈ s.stores, WithinStack top size a := by
  obtain ⟨checked, steps⟩ := reached
  generalize finish : (i, s) = b at steps
  induction steps generalizing i s with
  | refl =>
    cases finish
    exact ⟨⟨Nat.sub_le top size, Nat.le_refl top⟩, fun a member => absurd member (List.not_mem_nil)⟩
  | @tail b c before step ih =>
    cases finish
    obtain ⟨⟨lower, upper⟩, inside⟩ := ih (i := b.1) (s := b.2) rfl
    have next : b = (i + 1, b.2) := Prod.ext step.1 rfl
    have stores := step.withinStack word room upper (fits i b.2 ⟨checked, next ▸ before⟩) inside
    obtain ⟨_, n, _, _, made⟩ := step
    dsimp only at made stores
    rw [made] at stores ⊢
    exact ⟨pushArg_withinStack word lower upper (u32_lt n) stores, stores⟩

/-- The stores of each point the call comes to are among those of the call. -/
theorem StageReached.stores_subset (reached : StageReached m top size argv argc outEsp i s) :
    s.stores ⊆ (elfPrepareStack m top size argv argc outEsp).stores := by
  obtain ⟨⟨params, count⟩, steps⟩ := reached
  rw [elfPrepareStack, if_neg params, if_neg count, pushArgs_of_steps steps]
  rcases pushArgs_end i s with ⟨t, later, result⟩ | ⟨_, t, later, _, result⟩ | ⟨_, t, later, _, result⟩
  · rw [result]
    exact List.Subset.trans (pushSteps_stores later) (List.subset_append_left _ _)
  · rw [result]
    exact pushSteps_stores later
  · rw [result]
    exact pushSteps_stores later

theorem StageReached.withinStack_of_stores (word : top < 2 ^ 32)
    (inside : ∀ a ∈ (elfPrepareStack m top size argv argc outEsp).stores, WithinStack top size a)
    (reached : StageReached m top size argv argc outEsp i s) : top - size ≤ s.sp ∧ s.sp ≤ top := by
  obtain ⟨checked, steps⟩ := reached
  generalize finish : (i, s) = b at steps
  induction steps generalizing i s with
  | refl =>
    cases finish
    exact ⟨Nat.sub_le top size, Nat.le_refl top⟩
  | @tail b c before step ih =>
    cases finish
    obtain ⟨lower, upper⟩ := ih (i := b.1) (s := b.2) rfl
    have stores := StageReached.stores_subset ⟨checked, before.tail step⟩
    obtain ⟨_, n, _, _, made⟩ := step
    dsimp only at made
    rw [made] at stores ⊢
    exact pushArg_withinStack word lower upper (u32_lt n) fun a member => inside a (stores member)

theorem elfPrepareStack_checked (checked : StackChecked top size argc outEsp)
    (steps : Relation.ReflTransGen (PushStep top size argv) (argc.toNat, ⟨m, top, [], []⟩) (i, s)) :
    elfPrepareStack m top size argv argc outEsp = afterArgs argc.toNat (pushArgs top size argv i s) := by
  rw [elfPrepareStack, if_neg checked.1, if_neg checked.2, pushArgs_of_steps steps]

theorem StageReached.done (reached : StageReached m top size argv argc outEsp 0 s) :
    elfPrepareStack m top size argv argc outEsp = pushWords s argc.toNat := by
  rw [elfPrepareStack_checked reached.1 reached.2, pushArgs]
  rfl

theorem StageReached.refused (reached : StageReached m top size argv argc outEsp (i + 1) s)
    (stop : Refused top size argv i s) : (elfPrepareStack m top size argv argc outEsp).ret = some (-1) := by
  rw [elfPrepareStack_checked reached.1 reached.2, stop.pushArgs]
  rfl

theorem elfPrepareStack_unchecked (unchecked : ¬ StackChecked top size argc outEsp) :
    elfPrepareStack m top size argv argc outEsp = ⟨m, some (-1), none, []⟩ := by
  unfold elfPrepareStack
  by_cases params : top = 0 ∨ size < 64 ∨ outEsp = 0
  · rw [if_pos params]
  rw [if_neg params]
  by_cases count : argc < 0 ∨ argc > 16
  · rw [if_pos count]
  · exact absurd ⟨params, count⟩ unchecked

theorem argc_le (checked : StackChecked top size argc outEsp) : argc.toNat ≤ 16 := by
  have count := checked.2
  omega

/-- The stores of a call lie on the stack if those of each point it comes to do and there is
room for the words in the end. -/
theorem elfPrepareStack_withinStack (word : top < 2 ^ 32)
    (inside : ∀ i s, StageReached m top size argv argc outEsp i s → s.sp ≤ top ∧ ∀ a ∈ s.stores, WithinStack top size a)
    (words : ∀ s, StageReached m top size argv argc outEsp 0 s → top - size + (argc.toNat + 2) * 4 ≤ s.sp - s.sp % 4) :
    ∀ a ∈ (elfPrepareStack m top size argv argc outEsp).stores, WithinStack top size a := by
  by_cases checked : StackChecked top size argc outEsp
  · rcases pushArgs_end argc.toNat ⟨m, top, [], []⟩ with ⟨t, steps, result⟩ | ⟨i, t, steps, _, result⟩ |
      ⟨i, t, steps, _, result⟩
    · obtain ⟨upper, before⟩ := inside 0 t ⟨checked, steps⟩
      rw [StageReached.done ⟨checked, steps⟩]
      exact (pushWords_withinStack_iff word (argc_le checked) upper).mpr ⟨before, words t ⟨checked, steps⟩⟩
    · rw [elfPrepareStack_checked checked .refl, result]
      exact (inside (i + 1) t ⟨checked, steps⟩).2
    · rw [elfPrepareStack_checked checked .refl, result]
      exact (inside (i + 1) t ⟨checked, steps⟩).2
  · rw [elfPrepareStack_unchecked checked]
    exact fun a member => absurd member List.not_mem_nil

/-- Words stored at an aligned place change nothing but their own bytes. -/
theorem storeWords_kept {a x : Nat} {ws : List Nat} (aligned : a % 4 = 0) (off : x ∉ bytesAt a (4 * ws.length)) :
    storeWords m a ws x = m x := by
  induction ws generalizing m a with
  | nil => rfl
  | cons w ws ih =>
    rw [List.length_cons, show 4 * (ws.length + 1) = 4 + 4 * ws.length by omega, bytesAt_append, List.mem_append,
      not_or] at off
    obtain ⟨here, later⟩ := off
    rw [storeWords, ih (by omega) later]
    refine store32_outside ?_
    by_contra inside
    refine here (mem_bytesAt.mpr ⟨x - u32 a, by omega, ?_⟩)
    unfold u32 at inside ⊢
    omega

/-- A round changes nothing but the bytes that it lists. -/
theorem PushStep.kept {a b : Nat × StackState} (step : PushStep top size argv a b) {x : Nat} (off : x ∉ b.2.stores) :
    b.2.mem x = a.2.mem x := by
  obtain ⟨_, n, length, _, made⟩ := step
  rw [made] at off ⊢
  obtain ⟨_, here⟩ := not_or.mp (mt List.mem_append.mpr off)
  have apart (j : Nat) (inside : j < u32 n) (same : x = u32 (sub32 a.2.sp (u32 n) + j)) : False :=
    here (mem_bytesAt.mpr ⟨j, inside, same⟩)
  simp only [pushArg]
  by_cases null : argAt a.2.mem argv b.1 = 0
  · rw [null] at length
    cases length
    rw [if_neg (by simpa using null)]
    refine store_of_ne fun same => apart 0 (by decide) ?_
    rw [same, Nat.add_zero, u32_sub32]
  · rw [if_pos null]
    exact memcpy_outside fun j inside same => apart j inside same

theorem pushSteps_kept {a b : Nat × StackState} (steps : Relation.ReflTransGen (PushStep top size argv) a b) {x : Nat}
    (off : x ∉ b.2.stores) : b.2.mem x = a.2.mem x := by
  induction steps with
  | refl => rfl
  | tail before step ih =>
    rw [step.kept off]
    exact ih fun member => off (pushSteps_stores (.single step) member)

theorem pushWords_kept {argc x : Nat} (count : s.ptrs.length = argc) (off : x ∉ (pushWords s argc).stores) :
    (pushWords s argc).mem x = s.mem x := by
  simp only [pushWords, List.mem_append, not_or] at off ⊢
  obtain ⟨_, pointers, lowest⟩ := off
  have aligned : sub32 (s.sp - s.sp % 4) ((argc + 1) * 4) % 4 = 0 := by
    unfold sub32 u32
    omega
  have length : 4 * (s.ptrs ++ [0]).length = (argc + 1) * 4 := by
    rw [List.length_append, count, List.length_singleton, Nat.mul_comm]
  have room : sub32 (sub32 (s.sp - s.sp % 4) ((argc + 1) * 4)) 4 % 4 = 0 := by
    unfold sub32 u32
    omega
  have word : storeWords (storeWords s.mem (sub32 (s.sp - s.sp % 4) ((argc + 1) * 4)) (s.ptrs ++ [0]))
      (sub32 (sub32 (s.sp - s.sp % 4) ((argc + 1) * 4)) 4) [argc] x = _ := storeWords_kept room lowest
  simp only [storeWords, u32_sub32] at word
  rw [word]
  exact storeWords_kept aligned (length.symm ▸ pointers)

/-- The call changes nothing but the bytes that it lists. -/
theorem elfPrepareStack_kept {x : Nat} (off : x ∉ (elfPrepareStack m top size argv argc outEsp).stores) :
    (elfPrepareStack m top size argv argc outEsp).mem x = m x := by
  by_cases checked : StackChecked top size argc outEsp
  · rcases pushArgs_end argc.toNat ⟨m, top, [], []⟩ with ⟨t, steps, result⟩ | ⟨_, t, steps, _, result⟩ |
      ⟨_, t, steps, _, result⟩
    · have count := pushSteps_ptrs steps
      rw [StageReached.done ⟨checked, steps⟩] at off ⊢
      rw [pushWords_kept (by simpa using count) off]
      exact pushSteps_kept steps fun member => off (List.mem_append_left _ member)
    · rw [elfPrepareStack_checked checked .refl, result] at off ⊢
      exact pushSteps_kept steps off
    · rw [elfPrepareStack_checked checked .refl, result] at off ⊢
      exact pushSteps_kept steps off
  · rw [elfPrepareStack_unchecked checked]

/-- The call changes no byte but those it stores to. These lie on the stack, and arguments
that do not fit are refused, exactly if each argument fits below the end of the address space
from the bottom of the stack on and the words have room in the end. -/
theorem elf_prepare_stack_on_stack_iff (word : top < 2 ^ 32) (room : size ≤ top) :
    (∀ x, x ∉ (elfPrepareStack m top size argv argc outEsp).stores →
      (elfPrepareStack m top size argv argc outEsp).mem x = m x) ∧
    ((∀ a ∈ (elfPrepareStack m top size argv argc outEsp).stores, WithinStack top size a) ∧
        (TooLong m top size argv argc outEsp → (elfPrepareStack m top size argv argc outEsp).ret = some (-1)) ↔
      (∀ i s, StageReached m top size argv argc outEsp (i + 1) s → ArgumentFits top size argv i s) ∧
        ∀ s, StageReached m top size argv argc outEsp 0 s →
          top - size + (argc.toNat + 2) * 4 ≤ s.sp - s.sp % 4) := by
  refine ⟨fun x off => elfPrepareStack_kept off, ?_⟩
  constructor
  · rintro ⟨inside, refused⟩
    refine ⟨fun i s reached n length => ?_, fun s reached => ?_⟩
    · obtain ⟨lower, upper⟩ := reached.withinStack_of_stores word inside
      have bounds := argSize_bounds length
      by_cases below : top - size + n < 2 ^ 32
      · exact Or.inl below
      by_cases whole : n = 2 ^ 32
      · have ret := refused (Or.inl ⟨i, s, n, reached, length, by omega⟩)
        rw [elfPrepareStack_checked reached.1 reached.2] at ret
        rcases pushArgs_end (i + 1) s with ⟨t, _, result⟩ | ⟨j, t, steps, stop, _⟩ | ⟨j, t, _, _, result⟩
        · rw [result] at ret
          cases ret
        · exact Or.inr ⟨whole, j, t, steps, stop⟩
        · rw [result] at ret
          cases ret
      · -- the check passes by a sum that wraps, and the argument is put below the stack
        have passes : ¬ NoRoom top size s.sp (u32 n) := by
          rw [NoRoom, sub32_of_le room word, u32_of_lt (by omega : n < 2 ^ 32)]
          unfold u32
          omega
        have pushed : StageReached m top size argv argc outEsp i (pushArg s (argAt s.mem argv i) (u32 n)) :=
          ⟨reached.1, reached.2.tail ⟨rfl, n, length, passes, rfl⟩⟩
        have written : ∀ a ∈ bytesAt (sub32 s.sp n) n, WithinStack top size a := by
          intro a member
          rw [← u32_of_lt (by omega : n < 2 ^ 32)] at member
          exact inside a (pushed.stores_subset (List.mem_append_right _ member))
        have fits := (bytesAt_withinStack_iff word upper (by omega) bounds.1).mp written
        omega
    · have upper := (reached.withinStack_of_stores word inside).2
      rw [reached.done] at inside
      exact ((pushWords_withinStack_iff word (argc_le reached.1) upper).mp inside).2
  · rintro ⟨fits, words⟩
    refine ⟨elfPrepareStack_withinStack word (fun i s reached => ?_) words, ?_⟩
    · obtain ⟨bounds, inside⟩ := reached.withinStack_of_fits word room fits
      exact ⟨bounds.2, inside⟩
    · rintro (⟨i, s, n, reached, length, long⟩ | ⟨s, reached, long⟩)
      · rcases fits i s reached n length with below | ⟨_, j, t, steps, stop⟩
        · refine reached.refused ⟨n, length, ?_⟩
          rw [NoRoom, sub32_of_le room word, u32_of_lt (by omega : n < 2 ^ 32), u32_of_lt below]
          exact long
        · exact StageReached.refused ⟨reached.1, reached.2.trans steps⟩ stop
      · exact absurd (words s reached) (by omega)

end

/-- Sixteen null arguments on a stack of 64 bytes: the pointers begin below it. -/
theorem elf_prepare_stack_below_stack :
    ¬ ((∀ a ∈ (elfPrepareStack (fun _ => 0) 0x1000 64 0 16 0x2000).stores, WithinStack 0x1000 64 a) ∧
      (TooLong (fun _ => 0) 0x1000 64 0 16 0x2000 →
        (elfPrepareStack (fun _ => 0) 0x1000 64 0 16 0x2000).ret = some (-1))) := by
  intro claimed
  have member : 0xFA8 ∈ (elfPrepareStack (fun _ => 0) 0x1000 64 0 16 0x2000).stores := by decide +kernel
  have inside := claimed.1 0xFA8 member
  revert inside
  unfold WithinStack
  decide

/-- The words `0x3000` and `0x3003` at `0x2000`, and there the strings `ls` and `-a`. -/
def twoArguments : Bytes := fun x =>
  if 0x2000 ≤ x ∧ x < 0x2008 then ([0, 0x30, 0, 0, 3, 0x30, 0, 0] : List UInt8).getD (x - 0x2000) 0
  else if 0x3000 ≤ x ∧ x < 0x3006 then ([0x6C, 0x73, 0, 0x2D, 0x61, 0] : List UInt8).getD (x - 0x3000) 0
  else 0

/-- The points of the call with these arguments on a stack of 64 bytes. -/
theorem twoArguments_stages {outEsp i : Nat} {s : StackState}
    (reached : StageReached twoArguments 0x1000 64 0x2000 2 outEsp i s) :
    (i = 2 ∧ s = ⟨twoArguments, 0x1000, [], []⟩) ∨
      (i = 1 ∧ s = pushArg ⟨twoArguments, 0x1000, [], []⟩ 0x3003 3) ∨
      (i = 0 ∧ s = pushArg (pushArg ⟨twoArguments, 0x1000, [], []⟩ 0x3003 3) 0x3000 3) := by
  rcases pushSteps_cases (k := 3) (by decide +kernel) reached.2 with first | later
  · exact Or.inl first
  rcases pushSteps_cases (k := 3) (by decide +kernel) later with second | last
  · exact Or.inr (Or.inl second)
  · exact Or.inr (Or.inr (pushSteps_done last))

theorem twoArguments_size {outEsp i : Nat} {s : StackState}
    (reached : StageReached twoArguments 0x1000 64 0x2000 2 outEsp (i + 1) s) :
    argSize s.mem (argAt s.mem 0x2000 i) = some 3 := by
  rcases twoArguments_stages reached with ⟨stage, rfl⟩ | ⟨stage, rfl⟩ | ⟨stage, _⟩
  · cases Nat.succ.inj stage
    decide +kernel
  · cases Nat.succ.inj stage
    decide +kernel
  · cases stage

theorem elf_prepare_stack_on_stack_two_arguments :
    (∀ a ∈ (elfPrepareStack twoArguments 0x1000 64 0x2000 2 0x4000).stores, WithinStack 0x1000 64 a) ∧
      (TooLong twoArguments 0x1000 64 0x2000 2 0x4000 →
        (elfPrepareStack twoArguments 0x1000 64 0x2000 2 0x4000).ret = some (-1)) := by
  refine (elf_prepare_stack_on_stack_iff (by decide) (by decide)).2.mpr ⟨fun i s reached n length => ?_, fun s reached => ?_⟩
  · cases Option.some.inj (length.symm.trans (twoArguments_size reached))
    exact Or.inl (by decide)
  · rcases twoArguments_stages reached with ⟨stage, _⟩ | ⟨stage, _⟩ | ⟨_, rfl⟩
    · cases stage
    · cases stage
    · decide +kernel

end LearningOS
