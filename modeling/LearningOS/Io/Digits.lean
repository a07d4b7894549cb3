import LearningOS.Io.Kprintf
import Mathlib.Data.Nat.Digits.Defs

namespace LearningOS
open ByteStore

namespace Kprintf

section
variable {n base j k quotient value : Nat} {uppercase : Bool}

theorem mul_two_pow_succ (base k : Nat) : base * 2 ^ (k + 1) = base * 2 ^ k * 2 := by
  rw [Nat.pow_succ, Nat.mul_assoc]

/-- The first loop doubles the divisor until twice it is more than the dividend, also where the
doubled divisor does not fit. -/
theorem shiftUp_eq (positive : 0 < base) (word : n < 2 ^ 64) (fits : base * 2 ^ j < 2 ^ 64) :
    ∃ k, shiftUp n (base * 2 ^ j) (2 ^ j) = (base * 2 ^ k, 2 ^ k) ∧ (k = j ∨ base * 2 ^ k ≤ n) ∧
      n < base * 2 ^ (k + 1) := by
  induction left : n - base * 2 ^ j using Nat.strong_induction_on generalizing j with
  | _ l ih =>
    have twice := mul_two_pow_succ base j
    rw [shiftUp]
    by_cases more : u64 (base * 2 ^ j * 2) > base * 2 ^ j ∧ u64 (base * 2 ^ j * 2) ≤ n
    · have exact : u64 (base * 2 ^ j * 2) = base * 2 ^ (j + 1) := by
        rw [twice]
        unfold u64 at more ⊢
        omega
      have power : 2 ^ (j + 1) ≤ base * 2 ^ (j + 1) := Nat.le_mul_of_pos_left _ positive
      have current : u64 (2 ^ j * 2) = 2 ^ (j + 1) := by
        rw [← Nat.pow_succ]
        exact Nat.mod_eq_of_lt (by omega)
      have within : base * 2 ^ (j + 1) ≤ n := exact ▸ more.2
      obtain ⟨k, up, below, small⟩ := ih (n - base * 2 ^ (j + 1)) (by omega) (by omega) rfl
      rw [if_pos more, exact, current]
      exact ⟨k, up, Or.inr (below.elim (fun same => same ▸ within) id), small⟩
    · refine ⟨j, if_neg more, Or.inl rfl, ?_⟩
      have some : 0 < base * 2 ^ j := Nat.mul_pos positive (Nat.two_pow_pos j)
      rw [twice]
      unfold u64 at more
      omega

theorem shiftDown_zero (n quotient denom : Nat) : shiftDown n quotient denom 0 = (quotient, n) := by
  rw [shiftDown, if_pos rfl]

theorem shiftDown_round (aligned : 2 ^ (k + 1) ∣ quotient) :
    shiftDown n quotient (base * 2 ^ k) (2 ^ k) =
      if n ≥ base * 2 ^ k then shiftDown (n - base * 2 ^ k) (quotient + 2 ^ k) (base * 2 ^ k / 2) (2 ^ k / 2)
      else shiftDown n quotient (base * 2 ^ k / 2) (2 ^ k / 2) := by
  obtain ⟨high, rfl⟩ := aligned
  have bit := Nat.two_pow_add_eq_or_of_lt (Nat.pow_lt_pow_succ (n := k) (a := 2) (by decide)) high
  rw [shiftDown, if_neg (Nat.ne_of_gt (Nat.two_pow_pos k)), bit]

/-- The second loop finds the bits of the quotient from the highest down. -/
theorem shiftDown_eq (positive : 0 < base) (small : n < base * 2 ^ (k + 1)) (aligned : 2 ^ (k + 1) ∣ quotient) :
    shiftDown n quotient (base * 2 ^ k) (2 ^ k) = (quotient + n / base, n % base) := by
  induction k generalizing n quotient with
  | zero =>
    rw [shiftDown_round aligned]
    simp only [Nat.pow_zero, Nat.mul_one, Nat.zero_add, Nat.pow_one] at small ⊢
    rw [show 1 / 2 = 0 by decide, shiftDown_zero, shiftDown_zero]
    by_cases more : n ≥ base
    · obtain ⟨rest, rfl⟩ := Nat.exists_eq_add_of_le more
      have less : rest < base := by omega
      rw [if_pos more, Nat.add_sub_cancel_left, Nat.add_div_left _ positive, Nat.add_mod_left, Nat.div_eq_of_lt less,
        Nat.mod_eq_of_lt less]
    · have less : n < base := Nat.lt_of_not_le more
      rw [if_neg more, Nat.div_eq_of_lt less, Nat.mod_eq_of_lt less, Nat.add_zero]
  | succ k ih =>
    have half : base * 2 ^ (k + 1) / 2 = base * 2 ^ k := by
      rw [mul_two_pow_succ, Nat.mul_div_cancel _ (by decide)]
    have half' : 2 ^ (k + 1) / 2 = 2 ^ k := by rw [Nat.pow_succ, Nat.mul_div_cancel _ (by decide)]
    have aligned' : 2 ^ (k + 1) ∣ quotient := Nat.dvd_trans (Nat.pow_dvd_pow 2 (Nat.le_succ _)) aligned
    rw [shiftDown_round aligned, half, half']
    by_cases more : n ≥ base * 2 ^ (k + 1)
    · obtain ⟨rest, rfl⟩ := Nat.exists_eq_add_of_le more
      have less : rest < base * 2 ^ (k + 1) := by
        rw [mul_two_pow_succ base (k + 1)] at small
        omega
      rw [if_pos more, Nat.add_sub_cancel_left, ih less (Nat.dvd_add aligned' (Nat.dvd_refl _)),
        Nat.mul_add_div positive, Nat.mul_add_mod, Nat.add_assoc]
    · rw [if_neg more, ih (Nat.lt_of_not_le more) aligned']

/-- The first loop from the divisor itself. -/
theorem shiftUp_base (positive : 0 < base) (baseWord : base < 2 ^ 32) (word : n < 2 ^ 64) :
    ∃ k, shiftUp n base 1 = (base * 2 ^ k, 2 ^ k) ∧ (k = 0 ∨ base * 2 ^ k ≤ n) ∧ n < base * 2 ^ (k + 1) := by
  have up := shiftUp_eq (j := 0) positive word (by omega)
  rwa [Nat.pow_zero, Nat.mul_one] at up

theorem u64Divmod_eq (positive : 0 < base) (baseWord : base < 2 ^ 32) (word : n < 2 ^ 64) :
    u64Divmod n base = (n / base, n % base) := by
  obtain ⟨k, up, _, small⟩ := shiftUp_base positive baseWord word
  have rest : n % base < 2 ^ 32 := Nat.lt_trans (Nat.mod_lt n positive) baseWord
  rw [u64Divmod, if_neg (Nat.ne_of_gt positive), up]
  dsimp only
  rw [shiftDown_eq positive small (Nat.dvd_zero _), Nat.zero_add, u32_of_lt rest]

/-- `u64_divmod` divides, up to the largest dividends: the first loop leaves the divisor times the
largest power of two that the dividend has room for, or the divisor itself, as if nothing could wrap around. -/
theorem u64_divmod_divides (positive : 1 ≤ base) (baseWord : base < 2 ^ 32) (word : n < 2 ^ 64) :
    u64Divmod n base = (n / base, n % base) ∧
      ∃ k, shiftUp n base 1 = (base * 2 ^ k, 2 ^ k) ∧ (k = 0 ∨ base * 2 ^ k ≤ n) ∧ n < base * 2 ^ (k + 1) :=
  ⟨u64Divmod_eq positive baseWord word, shiftUp_base positive baseWord word⟩

theorem u64_divmod_divides_max :
    u64Divmod (2 ^ 64 - 1) 10 = ((2 ^ 64 - 1) / 10, (2 ^ 64 - 1) % 10) ∧
      ∃ k, shiftUp (2 ^ 64 - 1) 10 1 = (10 * 2 ^ k, 2 ^ k) ∧ (k = 0 ∨ 10 * 2 ^ k ≤ 2 ^ 64 - 1) ∧
        2 ^ 64 - 1 < 10 * 2 ^ (k + 1) :=
  u64_divmod_divides (by decide) (by decide) (by decide)

/-- The loop over `buf` finds the digits of a value that has no more than there is room for. -/
theorem fillDigits_eq (large : 1 < base) (baseWord : base < 2 ^ 32) (word : value < 2 ^ 64) {buf : List UInt8}
    (room : value < base ^ (32 - buf.length)) :
    fillDigits base uppercase value buf = buf ++ (Nat.digits base value).map (digitChar uppercase) := by
  induction value using Nat.strong_induction_on generalizing buf with
  | _ value ih =>
    rw [fillDigits]
    by_cases zero : value = 0
    · subst zero
      rw [if_neg (by simp), Nat.digits_zero, List.map_nil, List.append_nil]
    have positive : 0 < value := Nat.pos_of_ne_zero zero
    have left : buf.length < 32 := by
      by_contra full
      rw [Nat.sub_eq_zero_of_le (Nat.le_of_not_lt full), Nat.pow_zero] at room
      omega
    have smaller : value / base < value := Nat.div_lt_self positive large
    rw [if_pos ⟨positive, left⟩, u64Divmod_eq (by omega) baseWord word]
    dsimp only
    rw [ih _ smaller (by omega), Nat.digits_def' large positive, List.map_cons, List.append_assoc,
      List.singleton_append]
    rw [List.length_append, List.length_singleton]
    refine Nat.div_lt_of_lt_mul ?_
    rw [← Nat.pow_succ']
    rwa [show (32 - (buf.length + 1)).succ = 32 - buf.length by omega]

/-- The digits `print_uint_base` prints. -/
def uintDigits (value base : Nat) (uppercase : Bool) : List UInt8 :=
  if value = 0 then ['0'.toUInt8] else ((Nat.digits base value).map (digitChar uppercase)).reverse

theorem printUintBase_eq (bases : base = 10 ∨ base = 16) (word : value < 2 ^ 64) (width : Int) (pad : UInt8)
    (uppercase : Bool) :
    printUintBase value base width pad uppercase =
      List.replicate (width - (uintDigits value base uppercase).length).toNat pad ++
        uintDigits value base uppercase := by
  have filled : (if value = 0 then ['0'.toUInt8] else fillDigits base uppercase value []).reverse =
      uintDigits value base uppercase := by
    rw [uintDigits]
    by_cases zero : value = 0
    · rw [if_pos zero, if_pos zero]
      rfl
    · have large : 1 < base := by omega
      have room : value < base ^ (32 - ([] : List UInt8).length) := by
        rcases bases with rfl | rfl
        · exact Nat.lt_trans word (by decide)
        · exact Nat.lt_trans word (by decide)
      rw [if_neg zero, if_neg zero, fillDigits_eq large (by omega) word room, List.nil_append]
  have size := congrArg List.length filled
  rw [List.length_reverse] at size
  rw [printUintBase, filled, size]
  by_cases pads : width > (uintDigits value base uppercase).length
  · rw [if_pos pads, putPadding]
  · rw [if_neg pads, Int.toNat_of_nonpos (by omega), List.replicate_zero]

end
end Kprintf

end LearningOS
