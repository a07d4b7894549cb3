import Mathlib.Data.Fintype.Basic
import Mathlib.Data.List.Basic
import Mathlib.Logic.Function.Basic

namespace RingBuffer

/-- A ring of `n` cells between a tail, where elements leave, and a head, where
they enter. Both are equal in an empty ring, so one cell always stays free. -/
structure Ring (n : Nat) (α : Type) where
  cells : Fin n → α
  head : Fin n
  tail : Fin n

section
variable {n : Nat} {α : Type}

/-- The index `k` places behind another, around the ring. -/
def shift (i : Fin n) (k : Nat) : Fin n := ⟨(i.val + k) % n, Nat.mod_lt _ i.pos⟩

theorem shift_val {i : Fin n} {k : Nat} (inside : k < n) :
    (shift i k).val = if i.val + k < n then i.val + k else i.val + k - n := by
  have bound := i.isLt
  unfold shift
  split
  · rename_i less
    exact Nat.mod_eq_of_lt less
  · rename_i wraps
    have rest : i.val + k = i.val + k - n + n := by omega
    change (i.val + k) % n = i.val + k - n
    rw [rest, Nat.add_mod_right, Nat.mod_eq_of_lt (by omega)]
    omega

theorem shift_zero (i : Fin n) : shift i 0 = i := by
  have value := shift_val (i := i) i.pos
  rw [if_pos (by omega)] at value
  exact Fin.ext value

theorem shift_shift (i : Fin n) (j k : Nat) : shift (shift i j) k = shift i (j + k) := by
  apply Fin.ext
  change ((i.val + j) % n + k) % n = (i.val + (j + k)) % n
  rw [Nat.mod_add_mod, Nat.add_assoc]

theorem shift_ne {i : Fin n} {j k : Nat} (less : j < k) (inside : k < n) : shift i j ≠ shift i k := by
  intro same
  have values := congrArg Fin.val same
  have bound := i.isLt
  rw [shift_val (by omega), shift_val inside] at values
  split at values
  · split at values
    · omega
    · omega
  · split at values
    · omega
    · omega

namespace Ring
variable {q : Ring n α}

/-- The next place of the head is taken. -/
def Full (q : Ring n α) : Prop := shift q.head 1 = q.tail

instance (q : Ring n α) : Decidable q.Full := inferInstanceAs (Decidable (_ = _))

def put (q : Ring n α) (x : α) : Ring n α :=
  { q with cells := Function.update q.cells q.head x, head := shift q.head 1 }

def front (q : Ring n α) : α := q.cells q.tail

def drop (q : Ring n α) : Ring n α := { q with tail := shift q.tail 1 }

/-- How many elements the ring holds. -/
def count (q : Ring n α) : Nat :=
  if q.tail.val ≤ q.head.val then q.head.val - q.tail.val else q.head.val + n - q.tail.val

/-- The elements in the order in which they leave. -/
def contents (q : Ring n α) : List α := (List.range q.count).map fun k => q.cells (shift q.tail k)

@[simp] theorem contents_length (q : Ring n α) : q.contents.length = q.count := by
  simp [contents]

theorem count_lt (q : Ring n α) : q.count < n := by
  have head := q.head.isLt
  have tail := q.tail.isLt
  unfold count
  split
  · omega
  · omega

/-- The head is as far behind the tail as there are elements. -/
theorem head_eq (q : Ring n α) : q.head = shift q.tail q.count := by
  apply Fin.ext
  have head := q.head.isLt
  have tail := q.tail.isLt
  rw [shift_val q.count_lt]
  unfold count
  split
  · rw [if_pos (by omega)]
    omega
  · rw [if_neg (by omega)]
    omega

/-- The head and the tail of a ring determine its count. -/
theorem count_eq {k : Nat} (inside : k < n) (head : q.head = shift q.tail k) : q.count = k := by
  have bound := q.count_lt
  rw [q.head_eq] at head
  rcases Nat.lt_trichotomy q.count k with less | same | more
  · exact absurd head (shift_ne less inside)
  · exact same
  · exact absurd head.symm (shift_ne more bound)

theorem full_iff (q : Ring n α) : q.Full ↔ q.count = n - 1 := by
  have bound := q.count_lt
  unfold Full
  rw [q.head_eq, shift_shift]
  constructor
  · intro same
    by_contra room
    have apart : shift q.tail 0 ≠ shift q.tail (q.count + 1) := shift_ne (by omega) (by omega)
    exact apart ((shift_zero q.tail).trans same.symm)
  · intro last
    have whole : q.count + 1 = n := by omega
    apply Fin.ext
    change (q.tail.val + (q.count + 1)) % n = q.tail.val
    rw [whole, Nat.add_mod_right, Nat.mod_eq_of_lt q.tail.isLt]

theorem empty_iff (q : Ring n α) : q.head = q.tail ↔ q.contents = [] := by
  have bound := q.count_lt
  rw [← List.length_eq_zero_iff, contents_length]
  constructor
  · intro same
    exact count_eq (by omega) (same.trans (shift_zero q.tail).symm)
  · intro none
    have head := q.head_eq
    rwa [none, shift_zero] at head

theorem contents_put (room : ¬q.Full) (x : α) : (q.put x).contents = q.contents ++ [x] := by
  have bound := q.count_lt
  rw [full_iff] at room
  have more : (q.put x).count = q.count + 1 := by
    refine count_eq (by omega) ?_
    change shift q.head 1 = shift q.tail (q.count + 1)
    rw [q.head_eq, shift_shift]
  have last : (q.put x).cells (shift q.tail q.count) = x := by
    rw [← q.head_eq]
    exact Function.update_self ..
  rw [contents, more, List.range_succ, List.map_append, List.map_singleton]
  change _ ++ [(q.put x).cells (shift q.tail q.count)] = _
  rw [last]
  refine congrArg (· ++ [x]) (List.map_congr_left fun k member => ?_)
  have less := List.mem_range.mp member
  refine Function.update_of_ne ?_ _ _
  rw [q.head_eq]
  exact shift_ne less bound

theorem put_head_ne (two : 1 < n) (x : α) : (q.put x).head ≠ q.head := by
  have apart := shift_ne (i := q.head) Nat.zero_lt_one two
  rw [shift_zero] at apart
  exact apart.symm

theorem contents_drop (some : q.head ≠ q.tail) : q.contents = q.front :: q.drop.contents := by
  have bound := q.count_lt
  have positive : 0 < q.count := by
    rw [Nat.pos_iff_ne_zero]
    intro none
    have head := q.head_eq
    rw [none, shift_zero] at head
    exact some head
  have less : q.drop.count = q.count - 1 := by
    refine count_eq (by omega) ?_
    change q.head = shift (shift q.tail 1) (q.count - 1)
    rw [shift_shift, Nat.add_sub_cancel' positive]
    exact q.head_eq
  have whole : q.count = q.count - 1 + 1 := by omega
  rw [contents, whole, List.range_succ_eq_map, List.map_cons, List.map_map, contents, less]
  refine congrArg₂ List.cons ?_ (List.map_congr_left fun k _ => ?_)
  · rw [shift_zero]
    rfl
  · change q.cells (shift q.tail (k + 1)) = q.cells (shift (shift q.tail 1) k)
    rw [shift_shift, Nat.add_comm]

/-- A ring that holds what went in and did not come out is full, or empty, exactly
if that many elements are pending. -/
theorem pending {ins outs : List α} (kept : ins.length = outs.length + q.contents.length) :
    (q.Full ↔ ins.length = outs.length + (n - 1)) ∧ (q.head = q.tail ↔ ins.length = outs.length) := by
  rw [q.full_iff, q.empty_iff, ← List.length_eq_zero_iff, kept, contents_length]
  exact ⟨by omega, by omega⟩

end Ring

end

end RingBuffer
