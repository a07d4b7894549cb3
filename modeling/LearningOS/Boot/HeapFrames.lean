import LearningOS.Frames.Reach
import LearningOS.Paging.Translate
import LearningOS.Heap.Reach

namespace LearningOS
open ByteStore

/-- The runs of the two allocating calls from `init`, with every frame handed
out so far. -/
inductive AllocRun (init : Frames) : Frames → List Nat → Prop
  | start : AllocRun init init []
  | alloc {s given} : AllocRun init s given →
      AllocRun init (frameAlloc s).1
        (if (frameAlloc s).2 = 0 then given else (frameAlloc s).2 / 4096 :: given)
  | contiguous {s given} (n : Nat) : AllocRun init s given →
      AllocRun init (frameAllocContiguous s n).1
        (if (frameAllocContiguous s n).2 = 0 then given
        else List.range' ((frameAllocContiguous s n).2 / 4096) n ++ given)

/-- A bitmap whose frame numbers have 20 bits. -/
structure BitmapFits (s : Frames) : Prop where
  covered : s.totalFrames ≤ 32 * s.bitmapWords
  small : 32 * s.bitmapWords ≤ 2 ^ 20

/-- What every run of allocations keeps. -/
structure AllocInv (init s : Frames) (given : List Nat) : Prop where
  total : s.totalFrames = init.totalFrames
  words : s.bitmapWords = init.bitmapWords
  bitmap : s.frameBitmap = init.frameBitmap
  kept : ∀ f, testFrame init f = true → testFrame s f = true
  fresh : ∀ f ∈ given, init.frameBitmap ≠ 0 ∧ testFrame init f = false ∧ f < 32 * init.bitmapWords

namespace AllocInv
variable {init s : Frames} {given : List Nat}

theorem clear_init (inv : AllocInv init s given) {f : Nat} (clear : testFrame s f = false) :
    testFrame init f = false := by
  by_contra on
  rw [inv.kept f (by simpa using on)] at clear
  simp at clear

/-- Frames that were clear may be marked and handed out. -/
theorem hand (inv : AllocInv init s given) {l : List Nat} (bitmap : s.frameBitmap ≠ 0)
    (clear : ∀ f ∈ l, testFrame s f = false) (below : ∀ f ∈ l, f < 32 * s.bitmapWords) (used : Bool) :
    AllocInv init (l.foldl setFrame s) (if used then l ++ given else given) := by
  obtain ⟨total, words, same⟩ := foldl_setFrame_fields l s
  refine ⟨total.trans inv.total, words.trans inv.words, same.trans inv.bitmap, ?_, ?_⟩
  · intro f on
    rw [testFrame_foldl_setFrame, inv.kept f on, Bool.or_true]
  · intro f member
    have cases : f ∈ l ∨ f ∈ given := by
      cases used
      · exact Or.inr (by simpa using member)
      · simpa using member
    rcases cases with new | old
    · exact ⟨inv.bitmap ▸ bitmap, inv.clear_init (clear f new), inv.words ▸ below f new⟩
    · exact inv.fresh f old

end AllocInv

theorem AllocRun.inv {init s : Frames} {given : List Nat} (fits : BitmapFits init)
    (run : AllocRun init s given) : AllocInv init s given := by
  have small := fits.small
  induction run with
  | start => exact ⟨rfl, rfl, rfl, fun _ on => on, by simp⟩
  | @alloc s given _ inv =>
    unfold frameAlloc
    by_cases bitmap : s.frameBitmap = 0
    · simpa [bitmap] using inv
    rw [if_neg bitmap]
    cases scan : frameAllocScan s with
    | none => simpa using inv
    | some f =>
      obtain ⟨clear, below, _⟩ := frameAllocScan_eq_some.mp scan
      have words := inv.words
      simp only
      rw [u32_of_lt (by omega), Nat.mul_div_cancel f (by decide)]
      have next := inv.hand (l := [f]) bitmap (by simpa using clear) (by simpa using below) (f != 0)
      by_cases zero : f = 0
      · simpa [zero] using next
      · simpa [zero] using next
  | @contiguous s given n _ inv =>
    unfold frameAllocContiguous
    by_cases empty : s.frameBitmap = 0 ∨ n = 0
    · simpa [empty] using inv
    rw [if_neg empty]
    by_cases many : n > s.totalFrames
    · simpa [many] using inv
    rw [if_neg many]
    cases scan : contiguousScan s n (s.totalFrames + 1) 0 with
    | none => simpa using inv
    | some start =>
      obtain ⟨_, room, clear⟩ := contiguousScan_sound scan
      have words := inv.words
      have total := inv.total
      have covered := fits.covered
      simp only
      rw [u32_of_lt (by omega), Nat.mul_div_cancel start (by decide), foldl_setFrame_range]
      have next := inv.hand (l := List.range' start n) (by tauto)
        (fun f member => by
          obtain ⟨i, inRun, rfl⟩ := List.mem_range'.mp member
          simpa using clear i inRun)
        (fun f member => by
          have bounds := List.mem_range'_1.mp member
          omega) (start != 0)
      by_cases zero : start = 0
      · simpa [zero] using next
      · simpa [zero] using next

/-- Enough calls of `frame_alloc` set every bit below a given frame and no
other. -/
theorem AllocRun.fill {init : Frames} (bitmap : init.frameBitmap ≠ 0) (fits : BitmapFits init) {n : Nat}
    (below : n ≤ 32 * init.bitmapWords) :
    ∃ s given, AllocRun init s given ∧ (∀ f, f < n → testFrame s f = true) ∧
      ∀ f, n ≤ f → testFrame s f = testFrame init f := by
  induction n with
  | zero => exact ⟨init, [], .start, by simp, fun _ _ => rfl⟩
  | succ n ih =>
    obtain ⟨s, given, run, filled, rest⟩ := ih (by omega)
    have inv := run.inv fits
    by_cases on : testFrame s n = true
    · refine ⟨s, given, run, fun f less => ?_, fun f past => rest f (by omega)⟩
      rcases Nat.lt_succ_iff_lt_or_eq.mp less with less | rfl
      · exact filled f less
      · exact on
    · have scan : frameAllocScan s = some n :=
        frameAllocScan_eq_some.mpr ⟨by simpa using on, by rw [inv.words]; omega, filled⟩
      have result : (frameAlloc s).1 = setFrame s n := by
        rw [frameAlloc, if_neg (inv.bitmap ▸ bitmap), scan]
      refine ⟨_, _, run.alloc, fun f less => ?_, fun f past => ?_⟩
      · rw [result, testFrame_setFrame, Bool.or_eq_true, decide_eq_true_eq]
        rcases Nat.lt_succ_iff_lt_or_eq.mp less with less | rfl
        · exact Or.inr (filled f less)
        · exact Or.inl rfl
      · rw [result, testFrame_setFrame, rest f (by omega), decide_eq_false (by omega), Bool.false_or]

/-- Every clear frame but frame 0 is handed out by some run. -/
theorem AllocRun.reaches {init : Frames} (bitmap : init.frameBitmap ≠ 0) (fits : BitmapFits init) {f : Nat}
    (positive : f ≠ 0) (below : f < 32 * init.bitmapWords) (clear : testFrame init f = false) :
    ∃ s given, AllocRun init s given ∧ f ∈ given := by
  obtain ⟨s, given, run, filled, rest⟩ := AllocRun.fill bitmap fits below.le
  have inv := run.inv fits
  have small := fits.small
  have scan : frameAllocScan s = some f :=
    frameAllocScan_eq_some.mpr ⟨by rw [rest f le_rfl, clear], by rw [inv.words]; exact below, filled⟩
  have result : (frameAlloc s).2 = f * 4096 := by
    rw [frameAlloc, if_neg (inv.bitmap ▸ bitmap), scan]
    exact u32_of_lt (by omega)
  refine ⟨_, _, run.alloc, ?_⟩
  rw [result, if_neg (by omega), Nat.mul_div_cancel f (by decide)]
  exact List.mem_cons_self

end LearningOS
