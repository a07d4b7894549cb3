import LearningOS.Store.Copy
import Mathlib.Data.Set.Insert
import Mathlib.Data.Set.Lattice

namespace ByteStore

/-- Two runs that make the same stores, one from the memory `m` and one from `m'`: where they
have stored they have left the same bytes, and elsewhere each has the memory it began with. -/
structure InStep (m m' : Bytes) (stored : Set Nat) (s s' : Bytes) : Prop where
  same : ∀ x ∈ stored, s' x = s x
  kept : ∀ x, x ∉ stored → s x = m x ∧ s' x = m' x

/-- The addresses of the `n` bytes from `a` on. -/
def bytesAt (a n : Nat) : List Nat := (List.range n).map fun j => u32 (a + j)

theorem mem_bytesAt {a n x : Nat} : x ∈ bytesAt a n ↔ ∃ j, j < n ∧ x = u32 (a + j) := by
  simp only [bytesAt, List.mem_map, List.mem_range, eq_comm]

namespace InStep
variable {m m' s s' : Bytes} {stored : Set Nat} {a n : Nat}

theorem start (m m' : Bytes) : InStep m m' ∅ m m' := ⟨fun _ none => none.elim, fun _ _ => ⟨rfl, rfl⟩⟩

/-- A byte that was the same in front of the runs is the same after each store. -/
theorem byte (step : InStep m m' stored s s') {x : Nat} (agree : m' x = m x) : s' x = s x := by
  by_cases inside : x ∈ stored
  · exact step.same x inside
  · obtain ⟨left, right⟩ := step.kept x inside
    rw [left, right, agree]

theorem byte_at (step : InStep m m' stored s s') (agree : ∀ x ∈ bytesAt a n, m' x = m x) {j : Nat} (inside : j < n) :
    s' (u32 (a + j)) = s (u32 (a + j)) := step.byte (agree _ (mem_bytesAt.mpr ⟨j, inside, rfl⟩))

theorem load16_eq (step : InStep m m' stored s s') (agree : ∀ x ∈ bytesAt a n, m' x = m x) {k : Nat}
    (inside : k + 2 ≤ n) : load16 (wrapped s') (a + k) = load16 (wrapped s) (a + k) := by
  unfold load16 wrapped
  rw [step.byte_at agree (show k < n by omega), Nat.add_assoc, step.byte_at agree (show k + 1 < n by omega)]

theorem load32_eq (step : InStep m m' stored s s') (agree : ∀ x ∈ bytesAt a n, m' x = m x) {k : Nat}
    (inside : k + 4 ≤ n) : load32 (wrapped s') (a + k) = load32 (wrapped s) (a + k) := by
  unfold load32
  rw [step.load16_eq agree (show k + 2 ≤ n by omega), Nat.add_assoc, step.load16_eq agree (show k + 2 + 2 ≤ n by omega)]

theorem store (step : InStep m m' stored s s') (b : UInt8) :
    InStep m m' (insert a stored) (store s a b) (store s' a b) := by
  refine ⟨fun x inside => ?_, fun x outside => ?_⟩
  · by_cases here : x = a
    · rw [here, store_same, store_same]
    · rw [store_of_ne here, store_of_ne here]
      exact step.same x (Set.mem_of_mem_insert_of_ne inside here)
  · obtain ⟨elsewhere, before⟩ := not_or.mp outside
    rw [store_of_ne elsewhere, store_of_ne elsewhere]
    exact step.kept x before

/-- Stores at the `n` addresses from `a` on, each of a byte both runs agree on. -/
theorem foldl_store {value : Bytes → Nat → UInt8} (step : InStep m m' stored s s')
    (each : ∀ (stored : Set Nat) (s s' : Bytes) (j : Nat), j < n → InStep m m' stored s s' → value s' j = value s j) :
    InStep m m' (stored ∪ {x | x ∈ bytesAt a n})
      ((List.range n).foldl (fun s j => ByteStore.store s (u32 (a + j)) (value s j)) s)
      ((List.range n).foldl (fun s j => ByteStore.store s (u32 (a + j)) (value s j)) s') := by
  induction n with
  | zero => simpa [bytesAt] using step
  | succ n ih =>
    have before := ih fun stored s s' j inside => each stored s s' j (by omega)
    have addresses : stored ∪ {x | x ∈ bytesAt a (n + 1)} = insert (u32 (a + n)) (stored ∪ {x | x ∈ bytesAt a n}) := by
      ext x
      simp [bytesAt, List.range_succ, or_comm, or_left_comm, eq_comm]
    rw [List.range_succ, List.foldl_append, List.foldl_append, addresses]
    simp only [List.foldl_cons, List.foldl_nil]
    rw [each _ _ _ n (Nat.lt_succ_self n) before]
    exact before.store _

/-- A copy whose source both runs have read alike. -/
theorem memcpy (step : InStep m m' stored s s') {src : Nat} (agree : ∀ x ∈ bytesAt src n, m' x = m x) :
    InStep m m' (stored ∪ {x | x ∈ bytesAt a n}) (memcpy s a src n) (memcpy s' a src n) :=
  step.foldl_store fun _ _ _ _ inside here => here.byte_at agree inside

theorem memset (step : InStep m m' stored s s') (v : UInt8) :
    InStep m m' (stored ∪ {x | x ∈ bytesAt a n}) (memset s a v n) (memset s' a v n) :=
  step.foldl_store fun _ _ _ _ _ _ => rfl

theorem store32 (step : InStep m m' stored s s') (a v : Nat) :
    ∃ stored', stored ⊆ stored' ∧ InStep m m' stored' (store32 s a v) (store32 s' a v) := by
  refine ⟨_, ?_, (((step.store _).store _).store _).store _⟩
  exact fun x inside => Or.inr (Or.inr (Or.inr (Or.inr inside)))

end InStep

end ByteStore
