import LearningOS.Store.Ring

namespace RingBuffer

/-- How far a pop is: it has read the tail, or it has also seen another head and is loading
the words of the cell. -/
inductive PopAt (n : Nat) (β : Type)
  | out
  | started (tail : Fin n)
  | loading (tail : Fin n) (words : List β)

/-- What one access of a pop leaves: the ring, where the pop is, and what it returns if this
access was its last. A pop that finds nothing returns `some none`. -/
structure Accessed (n : Nat) (α β : Type) where
  ring : Ring n α
  pop : PopAt n β
  returned : Option (Option (List β))

variable {n : Nat} {α β : Type} (part : Nat → α → β) (k : Nat)

/-- The first `k` words of an element. -/
def parts (x : α) : List β := (List.range k).map fun i => part i x

/-- The next access of a pop that copies `k` words out of the ring. -/
def Ring.access (q : Ring n α) : PopAt n β → Accessed n α β
  | .out => ⟨q, .started q.tail, none⟩
  | .started tail => if tail = q.head then ⟨q, .out, some none⟩ else ⟨q, .loading tail [], none⟩
  | .loading tail words =>
    if words.length < k then ⟨q, .loading tail (words ++ [part words.length (q.cells tail)]), none⟩
    else ⟨{ q with tail := shift tail 1 }, .out, some (some words)⟩

/-- The element a pop takes is still in front of the ring, and the words it has are those of
this element. -/
def PopAt.Holds (q : Ring n α) : PopAt n β → Prop
  | .out => True
  | .started tail => tail = q.tail
  | .loading tail words =>
    tail = q.tail ∧ q.head ≠ q.tail ∧ words.length ≤ k ∧ words = parts part words.length q.front

/-- An access either leaves the ring alone and returns nothing yet, or it is a whole pop of the
ring as it is now. -/
inductive Accessed.Atomic (q : Ring n α) : Accessed n α β → Prop
  | silent (pop : PopAt n β) (holds : pop.Holds part k q) : Atomic q ⟨q, pop, none⟩
  | missed (empty : q.head = q.tail) : Atomic q ⟨q, .out, some none⟩
  | took (some : q.head ≠ q.tail) : Atomic q ⟨q.drop, .out, Option.some (Option.some (parts part k q.front))⟩

/-- How many accesses a pop has made. -/
def PopAt.made : PopAt n β → Nat
  | .out => 0
  | .started _ => 1
  | .loading _ words => words.length + 2

variable {part k} {q : Ring n α} {pop : PopAt n β}

@[simp] theorem parts_length (x : α) : (parts part k x).length = k := by simp [parts]

theorem parts_snoc (x : α) : parts part (k + 1) x = parts part k x ++ [part k x] := by
  rw [parts, List.range_succ, List.map_append]
  rfl

namespace PopAt

/-- An element that another one is put behind stays in front. -/
theorem Holds.put (holds : pop.Holds part k q) (room : ¬ q.Full) (x : α) : pop.Holds part k (q.put x) := by
  cases pop with
  | out => trivial
  | started tail => exact holds
  | loading tail words =>
    obtain ⟨same, some, length, loaded⟩ := holds
    have front : (q.put x).front = q.front := by
      change Function.update q.cells q.head x q.tail = q.cells q.tail
      exact Function.update_of_ne (Ne.symm some) x q.cells
    exact ⟨same, room, length, front ▸ loaded⟩

theorem Holds.access (holds : pop.Holds part k q) : (q.access part k pop).Atomic part k q := by
  cases pop with
  | out => exact .silent (.started q.tail) rfl
  | started tail =>
    obtain rfl : tail = q.tail := holds
    by_cases none : q.tail = q.head
    · rw [Ring.access, if_pos none]
      exact .missed none.symm
    · rw [Ring.access, if_neg none]
      exact .silent (.loading q.tail []) ⟨rfl, Ne.symm none, Nat.zero_le k, rfl⟩
  | loading tail words =>
    obtain ⟨rfl, some, length, loaded⟩ := holds
    by_cases more : words.length < k
    · rw [Ring.access, if_pos more]
      refine .silent (.loading q.tail _) ⟨rfl, some, ?_, ?_⟩
      · rw [List.length_append]
        exact more
      · rw [List.length_append, List.length_singleton, parts_snoc, ← loaded]
        rfl
    · have whole : words.length = k := by omega
      rw [whole] at loaded
      rw [Ring.access, if_neg more, loaded]
      exact .took some

theorem Holds.made_lt (holds : pop.Holds part k q) : pop.made < k + 3 := by
  cases pop with
  | out => exact Nat.succ_pos _
  | started tail => exact Nat.le_add_left 2 (k + 1)
  | loading tail words => exact Nat.add_le_add_right holds.2.2.1 3

/-- A pop returns after `k + 3` accesses at the latest. -/
theorem Holds.made_access (holds : pop.Holds part k q) : pop.made + 1 ≤
    (k + 3) * (q.access part k pop).returned.toList.length + (q.access part k pop).pop.made := by
  cases pop with
  | out => exact Nat.le_add_left ..
  | started tail =>
    by_cases none : tail = q.head
    · rw [Ring.access, if_pos none]
      change 2 ≤ (k + 3) * 1 + 0
      omega
    · rw [Ring.access, if_neg none]
      exact Nat.le_add_left ..
  | loading tail words =>
    by_cases more : words.length < k
    · rw [Ring.access, if_pos more]
      change words.length + 3 ≤ _ + ((words ++ _).length + 2)
      rw [List.length_append]
      exact Nat.le_add_left ..
    · rw [Ring.access, if_neg more]
      change words.length + 3 ≤ (k + 3) * 1
      have length := holds.2.2.1
      omega

end PopAt

end RingBuffer
