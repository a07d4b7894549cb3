import LearningOS.Frames.Bits

namespace LearningOS
open ByteStore

/-- A `return` inside a counting loop, read as a search. -/
theorem findSome?_if {l : List Nat} {P : Nat → Prop} [DecidablePred P] {q : Nat → Bool} {c : Nat}
    (same : ∀ b ∈ l, P b ↔ q (c + b) = true) :
    (l.findSome? fun b => if P b then some (c + b) else none) = (l.map (c + ·)).find? q := by
  induction l with
  | nil => rfl
  | cons b l ih =>
    rw [List.findSome?_cons, List.map_cons, List.find?_cons]
    by_cases hit : P b
    · rw [if_pos hit, (same b (by simp)).mp hit]
    · have miss : q (c + b) = false := by
        rw [same b (by simp)] at hit
        simpa using hit
      rw [if_neg hit, miss]
      exact ih fun b' member => same b' (by simp [member])

theorem maskedZero_iff (s : Frames) (i : Nat) {b : Nat} (small : b < 32) :
    s.words i &&& (1#32 <<< b) = 0#32 ↔ (!testFrame s (i * 32 + b)) = true := by
  rw [testFrame_eq, show (i * 32 + b) / 32 = i by omega, show (i * 32 + b) % 32 = b by omega]
  constructor
  · intro zero
    have bit := congrArg (fun w => w.getLsbD b) zero
    simp only [BitVec.getLsbD_and, getLsbD_mask b b small, decide_true, Bool.and_true, BitVec.getLsbD_zero] at bit
    simp [bit]
  · intro clear
    apply BitVec.eq_of_getLsbD_eq
    intro j _
    rw [BitVec.getLsbD_and, getLsbD_mask b j small, BitVec.getLsbD_zero]
    by_cases equal : j = b
    · subst j
      simpa using clear
    · simp [equal]

/-- One word of the scan. A word of ones is skipped, which changes nothing. -/
theorem wordScan_eq (s : Frames) (i : Nat) :
    (if s.words i ≠ BitVec.allOnes 32 then
      (List.range 32).findSome? fun b =>
        if s.words i &&& (1#32 <<< b) = 0#32 then some (i * 32 + b) else none
    else none) = ((List.range 32).map (i * 32 + ·)).find? fun f => !testFrame s f := by
  have scan := findSome?_if (l := List.range 32) (c := i * 32) (q := fun f => !testFrame s f)
    fun b member => maskedZero_iff s i (List.mem_range.mp member)
  split
  · exact scan
  · rename_i full
    simp only [ne_eq, not_not] at full
    symm
    rw [List.find?_eq_none]
    intro f member
    obtain ⟨b, small, rfl⟩ := List.mem_map.mp member
    rw [List.mem_range] at small
    rw [testFrame_eq, show (i * 32 + b) / 32 = i by omega, show (i * 32 + b) % 32 = b by omega, full,
      BitVec.getLsbD_allOnes]
    simp [small]

/-- The word-wise scan of `frame_alloc` is the naive search for the first clear
bit of the bitmap. -/
theorem frameAllocScan_eq (s : Frames) :
    frameAllocScan s = (List.range (32 * s.bitmapWords)).find? fun f => !testFrame s f := by
  unfold frameAllocScan
  simp only [wordScan_eq]
  generalize s.bitmapWords = n
  induction n with
  | zero => rfl
  | succ n ih =>
    have wide : List.range (32 * (n + 1)) = List.range (32 * n) ++ (List.range 32).map (n * 32 + ·) := by
      rw [Nat.mul_succ, List.range_add, Nat.mul_comm n 32]
    have more : List.range (n + 1) = List.range n ++ [n] := List.range_succ
    rw [more, List.findSome?_append, wide, List.find?_append, ih, List.findSome?_cons]
    cases ((List.range 32).map (n * 32 + ·)).find? fun f => !testFrame s f <;> rfl

theorem frameAllocScan_eq_some {s : Frames} {f : Nat} :
    frameAllocScan s = some f ↔
      testFrame s f = false ∧ f < 32 * s.bitmapWords ∧ ∀ g, g < f → testFrame s g = true := by
  rw [frameAllocScan_eq, List.find?_range_eq_some]
  simp

theorem frameAllocScan_eq_none {s : Frames} :
    frameAllocScan s = none ↔ ∀ f, f < 32 * s.bitmapWords → testFrame s f = true := by
  rw [frameAllocScan_eq, List.find?_range_eq_none]
  simp

/-- What the contiguous search returns is a run of clear bits. -/
theorem contiguousScan_sound {s : Frames} {count fuel start found : Nat}
    (run : contiguousScan s count fuel start = some found) :
    start ≤ found ∧ found + count ≤ s.totalFrames ∧ ∀ i, i < count → testFrame s (found + i) = false := by
  induction fuel generalizing start with
  | zero => simp [contiguousScan] at run
  | succ fuel ih =>
    unfold contiguousScan at run
    split at run
    · rename_i room
      split at run
      · obtain ⟨later, rest⟩ := ih run
        exact ⟨by omega, rest⟩
      · rename_i clear
        cases Option.some.inj run
        refine ⟨le_rfl, room, fun i small => ?_⟩
        have bit := List.find?_eq_none.mp clear i (List.mem_range.mpr small)
        simpa using bit
    · simp at run

/-- The contiguous allocation marks its frames one after the other. -/
theorem foldl_setFrame_range (s : Frames) (start count : Nat) :
    (List.range count).foldl (fun s i => setFrame s (start + i)) s = (List.range' start count).foldl setFrame s := by
  rw [List.range'_eq_map_range, List.foldl_map]

end LearningOS
