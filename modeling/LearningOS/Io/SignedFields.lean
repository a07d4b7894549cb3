import LearningOS.Io.Digits

namespace LearningOS
open ByteStore NulText

namespace Kprintf

/-- The decimal numeral of a number. -/
def decimal (n : Nat) : List UInt8 := (Nat.toDigits 10 n).map Char.toUInt8

/-- The sign of a decimal numeral. -/
def sign (v : Int) : List UInt8 := if v < 0 then ['-'.toUInt8] else []

/-- The decimal numeral of an integer. -/
def numeral (v : Int) : List UInt8 := sign v ++ decimal v.natAbs

/-- The directive `%d` with a width, the zero flag before it or not. -/
def fieldDirective (zero : Bool) (w : Nat) : List UInt8 :=
  '%'.toUInt8 :: ((if zero then ['0'.toUInt8] else []) ++ (if w = 0 then [] else decimal w) ++ ['d'.toUInt8])

/-- An integer as `printf` prints it: the sign after spaces, and before zeros. -/
def signedField (zero : Bool) (w : Nat) (v : Int) : List UInt8 :=
  if zero then sign v ++ List.replicate (w - (numeral v).length) '0'.toUInt8 ++ decimal v.natAbs
  else List.replicate (w - (numeral v).length) ' '.toUInt8 ++ numeral v

/-- What a run prints is the field, of the width or of as many characters as the numeral has. -/
def PrintsField (m : Bytes) (fmt : Nat) (args : Nat → Nat) (zero : Bool) (w : Nat) : Prop :=
  let v := toInt32 (u32 (args 0))
  ∃ rounds p, kvprintf m fmt args rounds = some p ∧ p.out = signedField zero w v ∧
    p.out.length = max w (numeral v).length

section
variable {m : Bytes} {fmt n w : Nat} {zero : Bool} {v : Int}

theorem digitChar_toUInt8 : ∀ n < 10, [(Nat.digitChar n)].map Char.toUInt8 = [digitChar false n] := by decide

theorem decimal_of_lt (small : n < 10) : decimal n = [digitChar false n] := by
  rw [decimal, Nat.toDigits_of_lt_base small, digitChar_toUInt8 n small]

theorem decimal_of_ge (large : 10 ≤ n) : decimal n = decimal (n / 10) ++ [digitChar false (n % 10)] := by
  rw [decimal, Nat.toDigits_of_base_le (by decide) large, List.map_append,
    digitChar_toUInt8 _ (Nat.mod_lt n (by decide)), decimal]

theorem decimal_eq_digits (positive : 0 < n) : decimal n = ((Nat.digits 10 n).map (digitChar false)).reverse := by
  induction n using Nat.strong_induction_on with
  | _ n ih =>
    rw [Nat.digits_def' (by decide) positive, List.map_cons, List.reverse_cons]
    rcases Nat.lt_or_ge n 10 with small | large
    · rw [decimal_of_lt small, Nat.div_eq_of_lt small, Nat.mod_eq_of_lt small]
      simp
    · rw [decimal_of_ge large, ih (n / 10) (by omega) (by omega)]

theorem printUintBase_decimal (word : n < 2 ^ 64) (width : Int) (pad : UInt8) :
    printUintBase n 10 width pad false = List.replicate (width - (decimal n).length).toNat pad ++ decimal n := by
  have digits : uintDigits n 10 false = decimal n := by
    rw [uintDigits]
    by_cases zero : n = 0
    · subst zero
      rfl
    · rw [if_neg zero, decimal_eq_digits (Nat.pos_of_ne_zero zero)]
  rw [printUintBase_eq (Or.inl rfl) word, digits]

/-- `print_int_decimal` prints the sign first, and the padding between it and the digits. -/
theorem printIntDecimal_eq (lower : -2 ^ 31 ≤ v) (upper : v < 2 ^ 31) (width : Int) (pad : UInt8) :
    printIntDecimal v width pad =
      sign v ++ List.replicate (width - (numeral v).length).toNat pad ++ decimal v.natAbs := by
  rw [printIntDecimal, numeral, sign]
  by_cases negative : v < 0
  · have magnitude : (-v % 2 ^ 64).toNat = v.natAbs := by omega
    rw [if_pos negative, if_pos negative, magnitude, printUintBase_decimal (by omega)]
    have room : ((if width > 0 then width - 1 else width) - ((decimal v.natAbs).length : Int)).toNat =
        (width - ((['-'.toUInt8] ++ decimal v.natAbs).length : Int)).toNat := by
      rw [List.length_append, List.length_singleton]
      split <;> omega
    rw [room]
    rfl
  · have magnitude : v.toNat = v.natAbs := by omega
    rw [if_neg negative, if_neg negative, magnitude, printUintBase_decimal (by omega)]
    rfl

/-- What holds of the digits a numeral is built of holds of all of it. -/
theorem decimal_forall {p : UInt8 → Prop} (digit : ∀ d < 10, p (digitChar false d)) (n : Nat) :
    ∀ c ∈ decimal n, p c := by
  induction n using Nat.strong_induction_on with
  | _ n ih =>
    rcases Nat.lt_or_ge n 10 with small | large
    · rw [decimal_of_lt small]
      exact fun c member => List.mem_singleton.mp member ▸ digit n small
    · rw [decimal_of_ge large]
      intro c member
      rcases List.mem_append.mp member with early | last
      · exact ih (n / 10) (by omega) c early
      · exact List.mem_singleton.mp last ▸ digit (n % 10) (Nat.mod_lt n (by decide))

theorem decimal_head (positive : 0 < n) : (decimal n).head? ≠ some '0'.toUInt8 := by
  have nonzero : ∀ d < 10, 0 < d → digitChar false d ≠ '0'.toUInt8 := by decide
  induction n using Nat.strong_induction_on with
  | _ n ih =>
    rcases Nat.lt_or_ge n 10 with small | large
    · rw [decimal_of_lt small]
      simpa using nonzero n small positive
    · have more : decimal (n / 10) ≠ [] := by simp [decimal]
      rw [decimal_of_ge large, List.head?_append_of_ne_nil _ more]
      exact ih (n / 10) (by omega) (by omega)

theorem decimal_length_le {k : Nat} (positive : 0 < k) : (decimal n).length ≤ k ↔ n < 10 ^ k := by
  rw [decimal, List.length_map, Nat.length_toDigits_le_iff (by decide) positive]

/-- The width a numeral stands for, as a 32-bit integer. -/
theorem widthOf_decimal (w : Nat) : widthOf 0 (decimal w) = (w : Int).bmod (2 ^ 32) := by
  have digit : ∀ d < 10, (digitChar false d).toNat = 48 + d := by decide
  induction w using Nat.strong_induction_on with
  | _ w ih =>
    rcases Nat.lt_or_ge w 10 with small | large
    · rw [decimal_of_lt small, widthOf, List.foldl_cons, List.foldl_nil, digit w small]
      congr 1
      simp
    · have before := ih (w / 10) (by omega)
      rw [widthOf] at before
      rw [decimal_of_ge large, widthOf, List.foldl_append, List.foldl_cons, List.foldl_nil, before,
        digit _ (Nat.mod_lt w (by decide)), show '0'.toNat = 48 from rfl]
      have parts : (w : Int) = ((w / 10 : Nat) : Int) * 10 + (((48 + w % 10 : Nat) : Int) - ((48 : Nat) : Int)) := by
        omega
      rw [parts, ← Int.bmod_add_bmod, Int.bmod_mul_bmod, Int.bmod_add_bmod]

/-- What stands between the `%` and the `d`. -/
def fieldDigits (zero : Bool) (w : Nat) : List UInt8 :=
  (if zero then ['0'.toUInt8] else []) ++ (if w = 0 then [] else decimal w)

theorem fieldDigits_isDigit (zero : Bool) (w : Nat) : ∀ c ∈ fieldDigits zero w, isDigit c = true := by
  intro c member
  rcases List.mem_append.mp member with flag | width
  · cases zero with
    | false => cases flag
    | true => cases List.mem_singleton.mp flag; rfl
  · by_cases none : w = 0
    · rw [if_pos none] at width
      cases width
    · rw [if_neg none] at width
      exact decimal_forall (p := fun c => isDigit c = true) (by decide) w c width

theorem padOf_fieldDigits (zero : Bool) (w : Nat) :
    padOf (fieldDigits zero w) = if zero then '0'.toUInt8 else ' '.toUInt8 := by
  cases zero with
  | true => rfl
  | false =>
    refine if_neg ?_
    rw [fieldDigits, if_neg (by decide), List.nil_append]
    by_cases none : w = 0
    · simp [none]
    · rw [if_neg none]
      exact decimal_head (Nat.pos_of_ne_zero none)

theorem widthOf_fieldDigits (zero : Bool) (w : Nat) : widthOf 0 (fieldDigits zero w) = (w : Int).bmod (2 ^ 32) := by
  have flag : widthOf 0 (if zero then ['0'.toUInt8] else []) = 0 := by cases zero <;> rfl
  have width : widthOf 0 (if w = 0 then [] else decimal w) = (w : Int).bmod (2 ^ 32) := by
    by_cases none : w = 0
    · subst none
      rfl
    · rw [if_neg none, widthOf_decimal]
  rw [widthOf, fieldDigits, List.foldl_append]
  rw [widthOf] at flag
  rw [flag, ← width, widthOf]

theorem convert_d (m : Bytes) (args : Nat → Nat) (width : Int) (pad : UInt8) (arg : Nat) :
    convert m args 'd'.toUInt8 width pad arg = some (printIntDecimal (toInt32 (u32 (args arg))) width pad, arg + 1) :=
  rfl

theorem round_field (format : Format m fmt (fieldDirective zero w)) (args : Nat → Nat) :
    ∃ r, round m fmt args ([] : List UInt8).length 0 = some r ∧
      r.last = some ('%'.toUInt8 :: fieldDigits zero w).length ∧
      r.out = printIntDecimal (toInt32 (u32 (args 0))) ((w : Int).bmod (2 ^ 32))
        (if zero then '0'.toUInt8 else ' '.toUInt8) := by
  have whole : Format m fmt ([] ++ '%'.toUInt8 :: (fieldDigits zero w ++ ['d'.toUInt8])) := format
  have later : Format m fmt ('%'.toUInt8 :: fieldDigits zero w ++ ['d'.toUInt8]) := format
  have here : fmtAt m fmt ('%'.toUInt8 :: fieldDigits zero w).length = 'd'.toUInt8 := later.at
  have length : ([] : List UInt8).length + 1 + (fieldDigits zero w).length =
      ('%'.toUInt8 :: fieldDigits zero w).length := by
    simp [Nat.add_comm]
  obtain ⟨reads, _, behind⟩ := directive_eq args whole (fieldDigits_isDigit zero w) rfl (by simp)
  rw [round, whole.at, charAt_cons_zero, if_neg (by decide), behind, length, padOf_fieldDigits, widthOf_fieldDigits,
    conversion]
  dsimp only
  rw [here, if_neg (fun both => absurd both.1 (by decide)), if_neg (by decide), convert_d]
  exact ⟨_, rfl, rfl, rfl⟩

/-- What the directive prints, in however many rounds it does. -/
theorem kvprintf_field (format : Format m fmt (fieldDirective zero w)) (args : Nat → Nat) :
    ∃ p, kvprintf m fmt args 2 = some p ∧ (∀ rounds q, kvprintf m fmt args rounds = some q → q = p) ∧
      p.out = printIntDecimal (toInt32 (u32 (args 0))) ((w : Int).bmod (2 ^ 32))
        (if zero then '0'.toUInt8 else ' '.toUInt8) := by
  obtain ⟨r, first, last, out⟩ := round_field format args
  have whole : Format m fmt ([] ++ '%'.toUInt8 :: (fieldDigits zero w ++ ['d'.toUInt8])) := format
  have ends : Format m fmt ('%'.toUInt8 :: fieldDigits zero w ++ ['d'.toUInt8] ++ []) := by simpa using whole
  have next : u32 (('%'.toUInt8 :: fieldDigits zero w).length + 1) =
      ('%'.toUInt8 :: fieldDigits zero w ++ ['d'.toUInt8]).length := by
    simpa [Nat.add_assoc] using ends.next (Nat.zero_le _)
  have run (rounds : Nat) : kvprintf m fmt args (rounds + 2) = some
      { out := r.out ++ [], arg := r.arg, reads := 0 :: r.reads ++
        [('%'.toUInt8 :: fieldDigits zero w ++ ['d'.toUInt8]).length] } := by
    have goes := kvprintfFrom_goesOn whole (rounds + 1) first last
    rw [next, kvprintfFrom_ends ends] at goes
    exact goes
  refine ⟨_, run 0, fun rounds q done => ?_, by rw [List.append_nil, out]⟩
  rcases rounds with _ | _ | rounds
  · cases done
  · have none : kvprintf m fmt args 1 = none := kvprintfFrom_goesOn whole 0 first last
    rw [none] at done
    cases done
  · rw [run] at done
    exact (Option.some.inj done).symm

theorem numeral_length_le (lower : -2 ^ 31 ≤ v) (upper : v < 2 ^ 31) : (numeral v).length ≤ 11 := by
  have digits : (decimal v.natAbs).length ≤ 10 := (decimal_length_le (by decide)).mpr (by omega)
  rw [numeral, List.length_append, sign]
  split
  · rw [List.length_singleton]
    omega
  · rw [List.length_nil]
    omega

theorem signedField_length (zero : Bool) (w : Nat) (v : Int) :
    (signedField zero w v).length = max w (numeral v).length := by
  have parts : (numeral v).length = (sign v).length + (decimal v.natAbs).length := List.length_append
  cases zero with
  | true =>
    simp only [signedField, if_true, List.length_append, List.length_replicate]
    omega
  | false =>
    simp only [signedField, Bool.false_eq_true, if_false, List.length_append, List.length_replicate]
    omega

/-- Spaces behind the sign are spaces before it where there is no sign or no space. -/
theorem sign_spaces_iff (v : Int) (k : Nat) :
    sign v ++ List.replicate k ' '.toUInt8 ++ decimal v.natAbs = List.replicate k ' '.toUInt8 ++ numeral v ↔
      0 ≤ v ∨ k = 0 := by
  rw [numeral, sign]
  by_cases negative : v < 0
  · rw [if_pos negative]
    cases k with
    | zero => simp
    | succ k =>
      refine iff_of_false (fun same => ?_) (by omega)
      have heads := (List.cons.inj same).1
      exact absurd heads (by decide)
  · rw [if_neg negative]
    simp [Int.not_lt.mp negative]

/-- A signed field comes out as `printf` prints it exactly if its width is that of a 32-bit
integer and there is no space to be put before a minus sign. -/
theorem kvprintf_signed_field_iff (format : Format m fmt (fieldDirective zero w)) (args : Nat → Nat) :
    PrintsField m fmt args zero w ↔
      w < 2 ^ 31 ∧ (zero = true ∨ 0 ≤ toInt32 (u32 (args 0)) ∨ w ≤ (numeral (toInt32 (u32 (args 0)))).length) := by
  obtain ⟨p, done, unique, out⟩ := kvprintf_field format args
  have word : u32 (args 0) < 2 ^ 32 := Nat.mod_lt _ (by decide)
  have lower : -2 ^ 31 ≤ toInt32 (u32 (args 0)) := by
    unfold toInt32
    split <;> omega
  have upper : toInt32 (u32 (args 0)) < 2 ^ 31 := by
    unfold toInt32
    split <;> omega
  rw [printIntDecimal_eq lower upper] at out
  have prints : PrintsField m fmt args zero w ↔ p.out = signedField zero w (toInt32 (u32 (args 0))) := by
    constructor
    · rintro ⟨rounds, q, run, field, _⟩
      rwa [← unique rounds q run]
    · intro field
      exact ⟨2, p, done, field, by rw [field, signedField_length]⟩
  rw [prints]
  generalize toInt32 (u32 (args 0)) = v at *
  have short := numeral_length_le lower upper
  have parts : (numeral v).length = (sign v).length + (decimal v.natAbs).length := List.length_append
  by_cases fits : w < 2 ^ 31
  · have width : ((w : Int).bmod (2 ^ 32) - (numeral v).length).toNat = w - (numeral v).length := by
      rw [Int.bmod_def]
      split <;> omega
    rw [width] at out
    cases zero with
    | true => exact iff_of_true out ⟨fits, Or.inl rfl⟩
    | false =>
      rw [out, signedField, if_neg (by decide)]
      refine (sign_spaces_iff v _).trans ?_
      rw [Nat.sub_eq_zero_iff_le]
      exact ⟨fun spaces => ⟨fits, Or.inr spaces⟩, fun both => both.2.resolve_left (by decide)⟩
  · refine iff_of_false (fun field => ?_) (fun both => fits both.1)
    -- The width wraps around, to one of less than `2 ^ 31`.
    have length := congrArg List.length (out.symm.trans field)
    have less : (w : Int).bmod (2 ^ 32) < 2 ^ 31 := Int.bmod_lt (by decide)
    rw [signedField_length, List.length_append, List.length_append, List.length_replicate] at length
    omega

end

/-- The directive `%5d`. -/
def fieldMemory : Bytes := bytesMemory ['%'.toUInt8, '5'.toUInt8, 'd'.toUInt8]

theorem fieldMemory_format : Format fieldMemory 4096 (fieldDirective false 5) :=
  bytesMemory_format (by decide) (by decide)

theorem kvprintf_signed_field_iff_five :
    PrintsField fieldMemory 4096 (fun _ => 5) false 5 ↔
      5 < 2 ^ 31 ∧ (false = true ∨ 0 ≤ toInt32 (u32 5) ∨ 5 ≤ (numeral (toInt32 (u32 5))).length) :=
  kvprintf_signed_field_iff fieldMemory_format _

/-- `%5d` prints -5 with the minus sign before the spaces. -/
theorem kvprintf_sign_before_spaces :
    Format fieldMemory 4096 (fieldDirective false 5) ∧ toInt32 (u32 (2 ^ 32 - 5)) = -5 ∧
      ¬PrintsField fieldMemory 4096 (fun _ => 2 ^ 32 - 5) false 5 ∧
      ∃ p, kvprintf fieldMemory 4096 (fun _ => 2 ^ 32 - 5) 2 = some p ∧
        p.out = ['-', ' ', ' ', ' ', '5'].map Char.toUInt8 ∧
        signedField false 5 (-5) = [' ', ' ', ' ', '-', '5'].map Char.toUInt8 := by
  obtain ⟨p, done, unique, out⟩ := kvprintf_field fieldMemory_format fun _ => 2 ^ 32 - 5
  have printed : p.out = ['-', ' ', ' ', ' ', '5'].map Char.toUInt8 := out.trans (by decide +kernel)
  have field : signedField false 5 (toInt32 (u32 (2 ^ 32 - 5))) = [' ', ' ', ' ', '-', '5'].map Char.toUInt8 := by
    decide +kernel
  refine ⟨fieldMemory_format, by decide, ?_, p, done, printed, field⟩
  rintro ⟨rounds, q, run, same, _⟩
  rw [unique rounds q run, printed, field] at same
  exact absurd same (by decide)

end Kprintf

end LearningOS
