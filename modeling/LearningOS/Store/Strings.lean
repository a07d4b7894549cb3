import LearningOS.Store.Copy

namespace ByteStore

/-- The loop of `strlen` from `len` on, for as many rounds as there are addresses left: past
these it sees the same bytes again. -/
def strlenFrom (m : Bytes) (s : Nat) : Nat → Nat → Option Nat
  | 0, _ => none
  | rounds + 1, len => if m (u32 (s + len)) = 0 then some len else strlenFrom m s rounds (len + 1)

/-- `strlen`, none where it does not return. -/
def strlen (m : Bytes) (s : Nat) : Option Nat := if s = 0 then some 0 else strlenFrom m s (2 ^ 32) 0

/-- The string a pointer points to, the empty one for a null pointer. -/
def stringAt (m : Bytes) (s : Nat) : Option (List UInt8) := (strlen m s).map (copyOut m s)

section
variable {m m' : Bytes} {s n dst src : Nat} {bs : List UInt8}

theorem strlenFrom_eq_some_iff {rounds len : Nat} :
    strlenFrom m s rounds len = some n ↔
      len ≤ n ∧ n < len + rounds ∧ m (u32 (s + n)) = 0 ∧ ∀ j, len ≤ j → j < n → m (u32 (s + j)) ≠ 0 := by
  induction rounds generalizing len with
  | zero =>
    simp only [strlenFrom, reduceCtorEq, false_iff]
    omega
  | succ rounds ih =>
    rw [strlenFrom]
    by_cases zero : m (u32 (s + len)) = 0
    · rw [if_pos zero, Option.some.injEq]
      constructor
      · rintro rfl
        exact ⟨Nat.le_refl _, by omega, zero, fun j lower upper => by omega⟩
      · rintro ⟨lower, _, _, before⟩
        by_contra other
        exact before len (Nat.le_refl _) (by omega) zero
    · rw [if_neg zero, ih]
      constructor
      · rintro ⟨lower, upper, last, before⟩
        refine ⟨by omega, by omega, last, fun j low high => ?_⟩
        by_cases first : j = len
        · rwa [first]
        · exact before j (by omega) high
      · rintro ⟨lower, upper, last, before⟩
        have later : len ≠ n := by
          rintro rfl
          exact zero last
        exact ⟨by omega, by omega, last, fun j low high => before j (by omega) high⟩

theorem strlen_eq_some_iff (notNull : s ≠ 0) :
    strlen m s = some n ↔ n < 2 ^ 32 ∧ m (u32 (s + n)) = 0 ∧ ∀ j, j < n → m (u32 (s + j)) ≠ 0 := by
  rw [strlen, if_neg notNull, strlenFrom_eq_some_iff, Nat.zero_add]
  simp only [Nat.zero_le, true_and, forall_const]

theorem copyOut_succ (m : Bytes) (src n : Nat) : copyOut m src (n + 1) = copyOut m src n ++ [m (u32 (src + n))] := by
  simp [copyOut, List.range_succ]

@[simp] theorem copyOut_length (m : Bytes) (src n : Nat) : (copyOut m src n).length = n := by
  simp [copyOut]

theorem copyOut_congr (same : ∀ j, j < n → m' (u32 (src + j)) = m (u32 (src + j))) :
    copyOut m' src n = copyOut m src n :=
  List.map_congr_left fun j member => same j (List.mem_range.mp member)

/-- A pointer points to a string exactly if the bytes there are those of the string with the
NUL behind them. -/
theorem stringAt_eq_some_iff (notNull : s ≠ 0) :
    stringAt m s = some bs ↔ bs.length < 2 ^ 32 ∧ copyOut m s (bs.length + 1) = bs ++ [0] ∧ 0 ∉ bs := by
  rw [stringAt, Option.map_eq_some_iff]
  constructor
  · rintro ⟨n, length, rfl⟩
    obtain ⟨bound, last, before⟩ := (strlen_eq_some_iff notNull).mp length
    refine ⟨by rwa [copyOut_length], by rw [copyOut_length, copyOut_succ, last], fun member => ?_⟩
    obtain ⟨j, inside, zero⟩ := List.mem_map.mp member
    exact before j (List.mem_range.mp inside) zero
  · rintro ⟨bound, bytes, nonzero⟩
    rw [copyOut_succ] at bytes
    obtain ⟨front, last⟩ := List.append_inj bytes (copyOut_length _ _ _)
    refine ⟨bs.length, (strlen_eq_some_iff notNull).mpr ⟨bound, List.singleton_inj.mp last, fun j inside zero => ?_⟩,
      front⟩
    rw [← front] at nonzero
    exact nonzero (List.mem_map.mpr ⟨j, List.mem_range.mpr inside, zero⟩)

/-- In a memory with a NUL somewhere every pointer points to a string. -/
theorem stringAt_of_nul {x : Nat} (word : x < 2 ^ 32) (nul : m x = 0) (s : Nat) : ∃ bs, stringAt m s = some bs := by
  by_cases null : s = 0
  · exact ⟨[], by rw [null]; rfl⟩
  have word' : sub32 x (u32 s) < 2 ^ 32 := Nat.mod_lt _ (by decide)
  have here : m (u32 (s + sub32 x (u32 s))) = 0 := by
    rwa [show u32 (s + sub32 x (u32 s)) = x by unfold sub32 u32; omega]
  have some : ∃ n, m (u32 (s + n)) = 0 := ⟨_, here⟩
  have less : Nat.find some < 2 ^ 32 := Nat.lt_of_le_of_lt (Nat.find_min' some here) word'
  refine ⟨copyOut m s (Nat.find some), ?_⟩
  rw [stringAt, (strlen_eq_some_iff null).mpr ⟨less, Nat.find_spec some, fun j before => Nat.find_min some before⟩]
  rfl

theorem stringAt_null (m : Bytes) : stringAt m 0 = some [] := rfl

theorem memcpy_succ (m : Bytes) (dst src n : Nat) :
    memcpy m dst src (n + 1) = store (memcpy m dst src n) (u32 (dst + n)) (memcpy m dst src n (u32 (src + n))) := by
  simp only [memcpy, List.range_succ, List.foldl_append, List.foldl_cons, List.foldl_nil]

theorem u32_add_injective {a j k : Nat} (same : u32 (a + j) = u32 (a + k)) (jWord : j < 2 ^ 32) (kWord : k < 2 ^ 32) :
    j = k := by
  unfold u32 at same
  omega

/-- Copied byte after byte, a source that the destination does not begin inside of arrives
as it was. -/
theorem memcpy_forward {j : Nat} (words : dst < 2 ^ 32 ∧ src < 2 ^ 32) (length : n ≤ 2 ^ 32)
    (clear : dst = src ∨ n ≤ sub32 dst src) (inside : j < n) :
    memcpy m dst src n (u32 (dst + j)) = m (u32 (src + j)) := by
  induction n with
  | zero => omega
  | succ n ih =>
    rw [memcpy_succ]
    by_cases last : j = n
    · subst last
      rw [store_same]
      refine memcpy_outside fun k below => ?_
      unfold sub32 at clear
      unfold u32 at clear ⊢
      omega
    · rw [store_of_ne fun same => last (u32_add_injective same (by omega) (by omega))]
      exact ih (by omega) (by omega) (by omega)

/-- A copy that begins inside its source repeats what stands in front of the destination. -/
theorem memcpy_repeats {j : Nat} (words : dst < 2 ^ 32 ∧ src < 2 ^ 32) (length : n ≤ 2 ^ 32) (apart : dst ≠ src)
    {p : UInt8 → Prop} (front : ∀ k, k < sub32 dst src → p (m (u32 (src + k)))) (inside : j < n) :
    p (memcpy m dst src n (u32 (dst + j))) := by
  induction n generalizing j with
  | zero => omega
  | succ n ih =>
    rw [memcpy_succ]
    by_cases last : j = n
    · subst last
      rw [store_same]
      by_cases early : j < sub32 dst src
      · rw [memcpy_outside fun k below => ?_]
        · exact front j early
        · unfold sub32 at early
          unfold u32 at early ⊢
          omega
      · have back : u32 (src + j) = u32 (dst + (j - sub32 dst src)) := by
          unfold sub32 at early ⊢
          unfold u32 at early ⊢
          omega
        have less : j - sub32 dst src < j := by
          unfold sub32 at early ⊢
          unfold u32 at early ⊢
          omega
        rw [back]
        exact ih (by omega) less
    · rw [store_of_ne fun same => last (u32_add_injective same (by omega) (by omega))]
      exact ih (by omega) (by omega)

end

end ByteStore
