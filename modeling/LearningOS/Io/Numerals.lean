import LearningOS.Io.Digits
import Mathlib.Data.Nat.Digits.Lemmas

namespace LearningOS
open ByteStore

namespace Kprintf

/-- What a character is worth as a digit, by its code. -/
def digitValue (c : UInt8) : Nat :=
  if c ≤ '9'.toUInt8 then c.toNat - '0'.toNat
  else if c ≤ 'F'.toUInt8 then c.toNat - 'A'.toNat + 10
  else c.toNat - 'a'.toNat + 10

/-- The value of a numeral, its first digit the most significant one. -/
def numeralValue (base : Nat) (numeral : List UInt8) : Nat :=
  numeral.foldl (fun value c => value * base + digitValue c) 0

/-- A numeral of a value, with no zero in front. -/
structure Denotes (base : Nat) (uppercase : Bool) (value : Nat) (numeral : List UInt8) : Prop where
  digits : ∀ c ∈ numeral, ∃ d, d < base ∧ c = digitChar uppercase d
  leading : numeral.head? = some '0'.toUInt8 → value = 0
  zero : value = 0 → numeral.length = 1
  value : numeralValue base numeral = value

section
variable {base value : Nat} {uppercase : Bool}

theorem digitValue_digitChar (uppercase : Bool) : ∀ d < 16, digitValue (digitChar uppercase d) = d := by
  cases uppercase
  · decide
  · decide

theorem digitChar_zero_iff (uppercase : Bool) : ∀ d < 16, digitChar uppercase d = '0'.toUInt8 → d = 0 := by
  cases uppercase
  · decide
  · decide

/-- Digits in the order they are found, read from the last on. -/
theorem numeralValue_reverse {digits : List Nat} (small : ∀ d ∈ digits, d < 16) :
    numeralValue base ((digits.map (digitChar uppercase)).reverse) = Nat.ofDigits base digits := by
  induction digits with
  | nil => rfl
  | cons d digits ih =>
    have rest := ih fun e member => small e (List.mem_cons_of_mem d member)
    rw [numeralValue] at rest
    rw [List.map_cons, List.reverse_cons, numeralValue, List.foldl_append, rest, List.foldl_cons, List.foldl_nil,
      digitValue_digitChar uppercase d (small d List.mem_cons_self), Nat.ofDigits_cons, Nat.mul_comm, Nat.add_comm]

theorem uintDigits_denotes (bases : base = 10 ∨ base = 16) (uppercase : Bool) (value : Nat) :
    Denotes base uppercase value (uintDigits value base uppercase) := by
  have large : 1 < base := by omega
  have few : base ≤ 16 := by omega
  rw [uintDigits]
  by_cases zero : value = 0
  · subst zero
    rw [if_pos rfl]
    refine ⟨fun c member => ⟨0, by omega, ?_⟩, fun _ => rfl, fun _ => rfl, ?_⟩
    · rw [List.mem_singleton.mp member]
      cases uppercase <;> rfl
    · rw [numeralValue, List.foldl_cons, List.foldl_nil, Nat.zero_mul, Nat.zero_add]
      rfl
  have below {d : Nat} (member : d ∈ Nat.digits base value) : d < base := Nat.digits_lt_base large member
  have nonempty : Nat.digits base value ≠ [] := Nat.digits_ne_nil_iff_ne_zero.mpr zero
  rw [if_neg zero]
  refine ⟨fun c member => ?_, fun head => ?_, fun empty => absurd empty zero, ?_⟩
  · obtain ⟨d, found, rfl⟩ := List.mem_map.mp (List.mem_reverse.mp member)
    exact ⟨d, below found, rfl⟩
  · rw [List.head?_reverse, List.getLast?_map, List.getLast?_eq_some_getLast nonempty, Option.map_some] at head
    have last := digitChar_zero_iff uppercase _ (Nat.lt_of_lt_of_le (below (List.getLast_mem nonempty)) few)
      (Option.some.inj head)
    exact absurd last (Nat.getLast_digit_ne_zero base zero)
  · rw [numeralValue_reverse fun d member => Nat.lt_of_lt_of_le (below member) few, Nat.ofDigits_digits]

theorem uintDigits_length_le (bases : base = 10 ∨ base = 16) (word : value < 2 ^ 64) :
    (uintDigits value base uppercase).length ≤ 20 := by
  rw [uintDigits]
  split
  · decide
  · rw [List.length_reverse, List.length_map]
    rcases bases with rfl | rfl
    · exact (Nat.digits_length_le_iff (by decide) value).mpr (Nat.lt_trans word (by decide))
    · exact (Nat.digits_length_le_iff (by decide) value).mpr (Nat.lt_trans word (by decide))

/-- `print_uint_base` prints padding up to the width and then the numeral of the value, of no
more digits than its buffer has room for. -/
theorem print_uint_base_denotes (bases : base = 10 ∨ base = 16) (word : value < 2 ^ 64) (width : Int) (pad : UInt8)
    (uppercase : Bool) :
    ∃ digits, printUintBase value base width pad uppercase =
        List.replicate (max 0 (width - (digits.length : Int))).toNat pad ++ digits ∧
      Denotes base uppercase value digits ∧ digits.length ≤ 32 := by
  have short : (uintDigits value base uppercase).length ≤ 20 := uintDigits_length_le bases word
  refine ⟨uintDigits value base uppercase, ?_, uintDigits_denotes bases uppercase value, by omega⟩
  rw [printUintBase_eq bases word width]
  congr 2
  omega

end

theorem print_uint_base_denotes_max :
    ∃ digits, printUintBase (2 ^ 64 - 1) 16 20 '0'.toUInt8 true =
        List.replicate (max 0 (20 - (digits.length : Int))).toNat '0'.toUInt8 ++ digits ∧
      Denotes 16 true (2 ^ 64 - 1) digits ∧ digits.length ≤ 32 :=
  print_uint_base_denotes (Or.inr rfl) (by decide) 20 _ true

end Kprintf

end LearningOS
