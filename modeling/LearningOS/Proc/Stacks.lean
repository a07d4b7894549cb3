import LearningOS.Heap.Client
import LearningOS.Proc.Reach

namespace LearningOS
open ByteStore

/-- The stack block a slot owns. -/
def stackOwner (t : Task) : Option Nat := if t.state = .unused then none else some t.stackBase

def stackOwners (s : Sched) : List Nat := (List.finRange 4).filterMap fun i => stackOwner (s.tasks i)

theorem stackOwner_eq_some {t : Task} {p : Nat} : stackOwner t = some p ↔ t.state ≠ .unused ∧ p = t.stackBase := by
  unfold stackOwner
  split
  · rename_i unused
    simp [unused]
  · rename_i used
    simp only [Option.some.injEq, used, ne_eq, not_false_eq_true, true_and]
    exact eq_comm

theorem mem_stackOwners {s : Sched} {i : Fin 4} {p : Nat} (owner : stackOwner (s.tasks i) = some p) :
    p ∈ stackOwners s := List.mem_filterMap.mpr ⟨i, List.mem_finRange i, owner⟩

theorem SameSlots.stackOwner_eq {s t : Sched} (same : SameSlots s t) (i : Fin 4) :
    stackOwner (t.tasks i) = stackOwner (s.tasks i) := by
  simp only [stackOwner, same.state i, same.base i]

/-- A task that exits keeps its stack. -/
theorem retire_stackOwner {s : Sched} {prev : Fin 4} (runs : (s.tasks prev).state = .runnable) (code : Int)
    (i : Fin 4) : stackOwner ((retire s prev code).tasks i) = stackOwner (s.tasks i) := by
  rw [(retire_fields s prev code).1]
  by_cases same : i = prev
  · subst same
    simp [stackOwner, runs]
  · rw [Function.update_of_ne same]

/-- The frame `task_context_init` builds stays inside the new stack. -/
theorem taskContextInit_outside {m : Bytes} {entry base x : Nat} (small : base + 4096 < 2 ^ 32)
    (outside : x < base ∨ base + 4096 ≤ x) : (taskContextInit m entry (u32 (base + 4096))).1 x = m x := by
  rw [u32_of_lt small]
  have length : (contextWords entry).length = 14 := rfl
  exact foldl_push_outside (by omega) small (by omega)

/-- The frame takes the topmost 56 bytes, and its third word from there is the code
segment of ring 0. -/
theorem taskContextInit_frame (m : Bytes) (entry : Nat) {base : Nat} (small : base + 4096 < 2 ^ 32) :
    (taskContextInit m entry (u32 (base + 4096))).2 = base + 4040 ∧
      load32 (taskContextInit m entry (u32 (base + 4096))).1 (base + 4088) = 0x08 := by
  rw [u32_of_lt small]
  have length : (contextWords entry).length = 14 := rfl
  have second : (contextWords entry)[1]? = some 0x08 := rfl
  refine ⟨?_, ?_⟩
  · have esp : (taskContextInit m entry (base + 4096)).2 = base + 4096 - 4 * (contextWords entry).length :=
      foldl_push_esp (by omega) small
    rw [esp, length]
    omega
  · have word := foldl_push_written (m := m) (by omega : 4 * (contextWords entry).length ≤ base + 4096) small second
    exact word

theorem stackOwner_install (s : Sched) (slot : Fin 4) (base esp : Nat) :
    stackOwner ((installTask s slot base esp).tasks slot) = some base ∧
      ∀ i, i ≠ slot → stackOwner ((installTask s slot base esp).tasks i) = stackOwner (s.tasks i) := by
  obtain ⟨tasks, _⟩ := installTask_fields s slot base esp
  refine ⟨?_, fun i differ => ?_⟩
  · rw [tasks, Function.update_self]
    rfl
  · rw [tasks, Function.update_of_ne differ]

/-- A new task owns one more block. -/
theorem stackOwners_install {s : Sched} {slot : Fin 4} (unused : (s.tasks slot).state = .unused) (base esp : Nat) :
    (stackOwners (installTask s slot base esp)).Perm (base :: stackOwners s) := by
  obtain ⟨newOwner, other⟩ := stackOwner_install s slot base esp
  have noOwner : stackOwner (s.tasks slot) = none := if_pos unused
  have exchange := owners_exchange (f := fun i => stackOwner (s.tasks i))
    (g := fun i => stackOwner ((installTask s slot base esp).tasks i)) (List.nodup_finRange 4)
    (List.mem_finRange slot) fun i _ differ => other i differ
  simp only [noOwner, newOwner, Option.toList_none, Option.toList_some, List.nil_append,
    List.singleton_append] at exchange
  exact exchange

theorem stackOwner_reap (s : Sched) (i : Fin 4) :
    stackOwner ((reap s i).tasks i) = none ∧ ∀ j, j ≠ i → stackOwner ((reap s i).tasks j) = stackOwner (s.tasks j) := by
  refine ⟨by simp [reap, stackOwner], fun j differ => ?_⟩
  simp only [reap, setTask_tasks, Function.update_of_ne differ]

/-- A reaped task gives up its block. -/
theorem stackOwners_reap {s : Sched} {i : Fin 4} {p : Nat} (owner : stackOwner (s.tasks i) = some p) :
    (p :: stackOwners (reap s i)).Perm (stackOwners s) := by
  obtain ⟨noOwner, other⟩ := stackOwner_reap s i
  have exchange := owners_exchange (f := fun j => stackOwner (s.tasks j))
    (g := fun j => stackOwner ((reap s i).tasks j)) (List.nodup_finRange 4)
    (List.mem_finRange i) fun j _ differ => other j differ
  simp only [noOwner, owner, Option.toList_none, Option.toList_some, List.nil_append,
    List.singleton_append] at exchange
  exact exchange

/-- A call of the scheduler on a heap that its stacks share with the blocks `others`:
afterwards exactly these are held again, every stack has its room, and what was held
before is as it was. -/
structure StackCall (r : HeapRegion) (others : List Nat) (h : Heap) (s : Sched) (h' : Heap) (s' : Sched) : Prop where
  held : Held r h' (stackOwners s' ++ others)
  room : ∀ p ∈ stackOwners s', 4096 ≤ roomAt h' p
  kept : ∀ q ∈ stackOwners s ++ others, q ∈ stackOwners s' ++ others → SamePayload h h' q
  outside : SameOutside r h h'

section
variable {r : HeapRegion} {others : List Nat} {h h' : Heap} {s s' : Sched}

theorem StackCall.refl (held : Held r h (stackOwners s ++ others)) (room : ∀ p ∈ stackOwners s, 4096 ≤ roomAt h p) :
    StackCall r others h s h s := ⟨held, room, fun q _ _ => .refl h q, fun _ _ => rfl⟩

/-- A task that keeps its slot keeps its stack. -/
theorem StackCall.payload (call : StackCall r others h s h' s') {i : Fin 4} (used : (s.tasks i).state ≠ .unused)
    (same : s'.tasks i = s.tasks i) : SamePayload h h' (s.tasks i).stackBase := by
  have before := mem_stackOwners (stackOwner_eq_some.mpr ⟨used, rfl⟩)
  have owner : stackOwner (s'.tasks i) = some (s.tasks i).stackBase := by
    rw [same]
    exact stackOwner_eq_some.mpr ⟨used, rfl⟩
  have after := mem_stackOwners owner
  exact call.kept _ (List.mem_append_left _ before) (List.mem_append_left _ after)

variable (held : Held r h (stackOwners s ++ others)) (room : ∀ p ∈ stackOwners s, 4096 ≤ roomAt h p)
include held room

/-- The new stack is written to and nothing else. -/
theorem installTask_stacks {h₁ : Heap} {slot : Fin 4} {base : Nat} (unused : (s.tasks slot).state = .unused)
    (call : kmalloc h 4096 = some (h₁, base)) (pointer : base ≠ 0) (entry : Nat) :
    StackCall r others h s { h₁ with mem := (taskContextInit h₁.mem entry (u32 (base + 4096))).1 }
      (installTask s slot base (taskContextInit h₁.mem entry (u32 (base + 4096))).2) := by
  rcases held.malloc 4096 with failed | ⟨_, _, took, _, held₁, large, kept₁, outside₁⟩
  · cases Option.some.inj (call.symm.trans failed)
    exact absurd rfl pointer
  cases Option.some.inj (call.symm.trans took)
  have bounds := held₁.bounds List.mem_cons_self
  have space : 4096 ≤ roomAt h₁ base := large
  have stop := r.stop_lt
  have fresh := (List.nodup_cons.mp held₁.nodup).1
  have inside (x : Nat) (away : x < base ∨ base + 4096 ≤ x) :
      (taskContextInit h₁.mem entry (u32 (base + 4096))).1 x = h₁.mem x := taskContextInit_outside (by omega) away
  generalize taskContextInit h₁.mem entry (u32 (base + 4096)) = frame at inside ⊢
  obtain ⟨held₂, room₂, kept₂⟩ := held₁.poke List.mem_cons_self frame.1 fun x _ _ outside => inside x (by omega)
  have kept (q : Nat) (atQ : q ∈ stackOwners s ++ others) : SamePayload h { h₁ with mem := frame.1 } q :=
    (kept₁ q atQ).trans (kept₂ q (List.mem_cons_of_mem base atQ) fun same => fresh (same ▸ atQ))
  have exchange := stackOwners_install unused base frame.2
  refine ⟨held₂.perm (exchange.symm.append_right _), fun p owner => ?_, fun q atQ _ => kept q atQ, fun x away => ?_⟩
  · rcases List.mem_cons.mp (exchange.subset owner) with rfl | old
    · exact space.trans room₂.ge
    · exact (room p old).trans (kept p (List.mem_append_left _ old)).room.ge
  · exact (inside x (by omega)).trans (outside₁ x away)

theorem schedulerAdd_stacks (entry : Nat) :
    ∃ h' s' ret, schedulerAdd h s entry = some (h', s', ret) ∧ StackCall r others h s h' s' := by
  unfold schedulerAdd
  split
  · exact ⟨h, s, -1, rfl, .refl held room⟩
  split
  · exact ⟨h, s, -1, rfl, .refl held room⟩
  · rename_i slot free
    rcases held.malloc 4096 with failed | ⟨h₁, base, call, pointer, _⟩
    · exact ⟨h, s, -1, by rw [failed]; rfl, .refl held room⟩
    · refine ⟨_, _, s.nextPid, ?_, installTask_stacks held room (freeSlot_unused free) call pointer entry⟩
      rw [call, Option.map_some]
      exact congrArg some (if_neg pointer)

/-- The zombie's stack is given back and nothing else. -/
theorem reap_stacks {i : Fin 4} (used : (s.tasks i).state ≠ .unused) :
    ∃ h', kfree h (s.tasks i).stackBase = some h' ∧ StackCall r others h s h' (reap s i) := by
  have exchange := stackOwners_reap (stackOwner_eq_some.mpr ⟨used, rfl⟩)
  have before := held.perm (exchange.symm.append_right others)
  obtain ⟨h', freed, held', kept, outside⟩ := before.free List.mem_cons_self
  rw [List.cons_append, List.erase_cons_head] at held'
  have still (q : Nat) (atQ : q ∈ stackOwners (reap s i) ++ others) : SamePayload h h' q := by
    refine kept q (List.mem_cons_of_mem _ atQ) ?_
    rintro rfl
    exact (List.nodup_cons.mp before.nodup).1 atQ
  refine ⟨h', freed, held', fun p owner => ?_, fun q _ atQ => still q atQ, outside⟩
  rw [(still p (List.mem_append_left _ owner)).room]
  exact room p (exchange.subset (List.mem_cons_of_mem _ owner))

end

end LearningOS
