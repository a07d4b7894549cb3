import LearningOS.Frames.Model

namespace LearningOS
open ByteStore

theorem testFrame_eq (s : Frames) (f : Nat) : testFrame s f = (s.words (f / 32)).getLsbD (f % 32) := by
  have bit : (s.words (f / 32) >>> (f % 32)) &&& 1#32 =
      if (s.words (f / 32)).getLsbD (f % 32) then 1#32 else 0#32 := by
    apply BitVec.eq_of_getLsbD_eq
    intro i small
    rw [BitVec.getLsbD_and, BitVec.getLsbD_ushiftRight, BitVec.getLsbD_one]
    by_cases zero : i = 0
    · subst i
      cases (s.words (f / 32)).getLsbD (f % 32 + 0) <;> simp_all
    · cases (s.words (f / 32)).getLsbD (f % 32) <;> simp [zero]
  unfold testFrame
  rw [bit]
  cases (s.words (f / 32)).getLsbD (f % 32) <;> decide

theorem getLsbD_mask (b i : Nat) (small : b < 32) : (1#32 <<< b).getLsbD i = decide (i = b) := by
  rw [BitVec.getLsbD_shiftLeft, BitVec.getLsbD_one]
  by_cases equal : i = b
  · subst i
    simp [small]
  · simp [equal]
    omega

section Fields
variable (s : Frames) (f : Nat)

@[simp] theorem setFrame_totalFrames : (setFrame s f).totalFrames = s.totalFrames := by
  unfold setFrame; split <;> rfl

@[simp] theorem setFrame_bitmapWords : (setFrame s f).bitmapWords = s.bitmapWords := by
  unfold setFrame; split <;> rfl

@[simp] theorem setFrame_frameBitmap : (setFrame s f).frameBitmap = s.frameBitmap := by
  unfold setFrame; split <;> rfl

theorem setFrame_placementAddr : (setFrame s f).placementAddr = s.placementAddr := by
  unfold setFrame; split <;> rfl

@[simp] theorem clearFrame_totalFrames : (clearFrame s f).totalFrames = s.totalFrames := by
  unfold clearFrame; split <;> rfl

@[simp] theorem clearFrame_bitmapWords : (clearFrame s f).bitmapWords = s.bitmapWords := by
  unfold clearFrame; split <;> rfl

@[simp] theorem clearFrame_frameBitmap : (clearFrame s f).frameBitmap = s.frameBitmap := by
  unfold clearFrame; split <;> rfl

theorem clearFrame_placementAddr : (clearFrame s f).placementAddr = s.placementAddr := by
  unfold clearFrame; split <;> rfl

end Fields

/-- `set_frame` sets one bit and no other. -/
theorem testFrame_setFrame (s : Frames) (f g : Nat) :
    testFrame (setFrame s f) g = (decide (g = f) || testFrame s g) := by
  unfold setFrame
  split
  · rename_i already
    by_cases equal : g = f
    · subst g
      simp [already]
    · simp [equal]
  · rw [testFrame_eq, testFrame_eq]
    by_cases word : g / 32 = f / 32
    · simp only [word, Function.update_self, BitVec.getLsbD_or, getLsbD_mask _ _ (Nat.mod_lt f (by decide))]
      have same : g % 32 = f % 32 ↔ g = f := by omega
      simp only [same]
      rw [Bool.or_comm]
    · have differ : g ≠ f := fun equal => word (by rw [equal])
      simp [Function.update_of_ne word, differ]

/-- `clear_frame` clears one bit and no other. -/
theorem testFrame_clearFrame (s : Frames) (f g : Nat) :
    testFrame (clearFrame s f) g = (testFrame s g && decide (g ≠ f)) := by
  unfold clearFrame
  split
  · rw [testFrame_eq, testFrame_eq]
    have small := Nat.mod_lt g (by decide : 32 > 0)
    by_cases word : g / 32 = f / 32
    · simp only [word, Function.update_self, BitVec.getLsbD_and, BitVec.getLsbD_not,
        getLsbD_mask _ _ (Nat.mod_lt f (by decide))]
      have same : g % 32 = f % 32 ↔ g = f := by omega
      simp [same, small]
    · have differ : g ≠ f := fun equal => word (by rw [equal])
      simp [Function.update_of_ne word, differ]
  · rename_i already
    by_cases equal : g = f
    · subst g
      simpa using already
    · simp [equal]

section Folds

@[simp] theorem foldl_setFrame_fields (l : List Nat) (s : Frames) :
    (l.foldl setFrame s).totalFrames = s.totalFrames ∧ (l.foldl setFrame s).bitmapWords = s.bitmapWords ∧
      (l.foldl setFrame s).frameBitmap = s.frameBitmap := by
  induction l generalizing s with
  | nil => exact ⟨rfl, rfl, rfl⟩
  | cons f l ih => simpa using ih (setFrame s f)

@[simp] theorem foldl_clearFrame_fields (l : List Nat) (s : Frames) :
    (l.foldl clearFrame s).totalFrames = s.totalFrames ∧ (l.foldl clearFrame s).bitmapWords = s.bitmapWords ∧
      (l.foldl clearFrame s).frameBitmap = s.frameBitmap := by
  induction l generalizing s with
  | nil => exact ⟨rfl, rfl, rfl⟩
  | cons f l ih => simpa using ih (clearFrame s f)

theorem foldl_frames_placementAddr {step : Frames → Nat → Frames}
    (keeps : ∀ s f, (step s f).placementAddr = s.placementAddr) (l : List Nat) (s : Frames) :
    (l.foldl step s).placementAddr = s.placementAddr := by
  induction l generalizing s with
  | nil => rfl
  | cons f l ih => rw [List.foldl_cons, ih, keeps]

theorem testFrame_foldl_setFrame (l : List Nat) (s : Frames) (g : Nat) :
    testFrame (l.foldl setFrame s) g = (decide (g ∈ l) || testFrame s g) := by
  induction l generalizing s with
  | nil => simp
  | cons f l ih =>
    rw [List.foldl_cons, ih, testFrame_setFrame]
    by_cases equal : g = f <;> simp [equal]

theorem testFrame_foldl_clearFrame (l : List Nat) (s : Frames) (g : Nat) :
    testFrame (l.foldl clearFrame s) g = (testFrame s g && decide (g ∉ l)) := by
  induction l generalizing s with
  | nil => simp
  | cons f l ih =>
    rw [List.foldl_cons, ih, testFrame_clearFrame]
    by_cases equal : g = f <;> simp [equal]

end Folds

section Count

/-- Adding one index below `n` to a predicate adds one to its count. -/
theorem count_insert {p q : Nat → Prop} [DecidablePred p] [DecidablePred q] {f n : Nat} (below : f < n)
    (fresh : ¬p f) (added : q f) (same : ∀ k, k ≠ f → (q k ↔ p k)) : Nat.count q n = Nat.count p n + 1 := by
  induction n with
  | zero => omega
  | succ n ih =>
    rw [Nat.count_succ, Nat.count_succ]
    by_cases last : f = n
    · subst last
      have agree : Nat.count q f = Nat.count p f := by
        rw [Nat.count_eq_card_filter_range, Nat.count_eq_card_filter_range]
        refine congrArg Finset.card (Finset.filter_congr fun k member => same k ?_)
        exact Nat.ne_of_lt (Finset.mem_range.mp member)
      rw [if_pos added, if_neg fresh, agree]
    · rw [ih (by omega), if_congr (same n (Ne.symm last)) rfl rfl]
      omega

end Count

/-- The counter is the number of set bits below `total_frames`. -/
structure Accounted (s : Frames) : Prop where
  small : s.totalFrames < 2 ^ 20
  used : s.usedFrames = Nat.count (fun f => testFrame s f = true) s.totalFrames

namespace Accounted
variable {s : Frames}

theorem used_le (acc : Accounted s) : s.usedFrames ≤ s.totalFrames := by
  rw [acc.used]
  exact Nat.count_le _

theorem setFrame (acc : Accounted s) {f : Nat} (below : f < s.totalFrames) : Accounted (setFrame s f) := by
  refine ⟨by simpa using acc.small, ?_⟩
  have bound := acc.used_le
  have small := acc.small
  rw [setFrame_totalFrames]
  by_cases already : testFrame s f = true
  · have same : LearningOS.setFrame s f = s := by simp [LearningOS.setFrame, already]
    rw [same]
    exact acc.used
  · have counter : (LearningOS.setFrame s f).usedFrames = s.usedFrames + 1 := by
      rw [LearningOS.setFrame, if_neg already]
      exact u32_of_lt (by omega)
    rw [counter, acc.used]
    refine (count_insert below already ?_ fun k differ => ?_).symm
    · simp [testFrame_setFrame]
    · simp [testFrame_setFrame, differ]

theorem clearFrame (acc : Accounted s) {f : Nat} (below : f < s.totalFrames) : Accounted (clearFrame s f) := by
  refine ⟨by simpa using acc.small, ?_⟩
  have bound := acc.used_le
  have small := acc.small
  rw [clearFrame_totalFrames]
  by_cases already : testFrame s f = true
  · have total : Nat.count (fun g => testFrame s g = true) s.totalFrames =
        Nat.count (fun g => testFrame (LearningOS.clearFrame s f) g = true) s.totalFrames + 1 := by
      refine count_insert below ?_ already fun k differ => ?_
      · simp [testFrame_clearFrame]
      · simp [testFrame_clearFrame, differ]
    have counter : (LearningOS.clearFrame s f).usedFrames = s.usedFrames - 1 := by
      have positive := acc.used
      rw [LearningOS.clearFrame, if_pos already]
      exact sub32_of_le (by omega) (by omega)
    rw [counter, acc.used, total]
    omega
  · have same : LearningOS.clearFrame s f = s := by simp [LearningOS.clearFrame, already]
    rw [same]
    exact acc.used

theorem foldl_setFrame (acc : Accounted s) {l : List Nat} (below : ∀ f ∈ l, f < s.totalFrames) :
    Accounted (l.foldl LearningOS.setFrame s) := by
  induction l generalizing s with
  | nil => exact acc
  | cons f l ih =>
    exact ih (acc.setFrame (below f (by simp))) fun g member => by simpa using below g (by simp [member])

theorem foldl_clearFrame (acc : Accounted s) {l : List Nat} (below : ∀ f ∈ l, f < s.totalFrames) :
    Accounted (l.foldl LearningOS.clearFrame s) := by
  induction l generalizing s with
  | nil => exact acc
  | cons f l ih =>
    exact ih (acc.clearFrame (below f (by simp))) fun g member => by simpa using below g (by simp [member])

end Accounted

end LearningOS
