import LearningOS.Fat.Model
import Mathlib.Data.List.TakeWhile

namespace LearningOS

/-- A byte that may stand in a part of a name. -/
def NameByte (c : UInt8) : Prop := c ≠ 0 ∧ c ≠ 0x20 ∧ c ≠ 0x2E

/-- The parts of a name, joined by a dot if there are two. -/
def joinName (base suffix : List UInt8) : List UInt8 := base ++ if suffix = [] then [] else 0x2E :: suffix

/-- The two parts of a name fit into the 8 and the 3 bytes of an entry. -/
structure NameParts (base suffix : List UInt8) : Prop where
  base_le : base.length ≤ 8
  suffix_le : suffix.length ≤ 3
  bytes : ∀ c ∈ base ++ suffix, NameByte c

/-- The 11 bytes of an entry that hold a name. -/
def entryName (base suffix : List UInt8) : List UInt8 := padded 8 base ++ padded 3 suffix

/-- Eleven bytes of two parts, each padded with spaces. -/
def PaddedName (raw : List UInt8) : Prop := ∃ base suffix, NameParts base suffix ∧ raw = entryName base suffix

/-- An upper-case name of a base and perhaps an extension that `fat_write_file`
stores as it is. -/
structure ShortName (name base suffix : List UInt8) : Prop extends NameParts base suffix where
  joined : name = joinName base suffix
  nonempty : base ≠ []
  noLower : ∀ c ∈ base ++ suffix, ¬ (0x61 ≤ c ∧ c ≤ 0x7A)
  used : base.head? ≠ some 0xE5

theorem padded_length {n : Nat} {part : List UInt8} (fits : part.length ≤ n) : (padded n part).length = n := by
  simp only [padded, List.length_append, List.length_replicate]
  omega

theorem padded_takeWhile (n : Nat) (part : List UInt8) :
    (padded n part).takeWhile (· ≠ 0x20) = part.takeWhile (· ≠ 0x20) := by
  have spaces (k : Nat) : (List.replicate k (0x20 : UInt8)).takeWhile (· ≠ 0x20) = [] := by
    simp
  rw [padded, List.takeWhile_append, spaces, List.append_nil]
  split
  · rename_i whole
    exact ((List.takeWhile_prefix _).eq_of_length whole).symm
  · rfl

/-- What the reader of the root directory makes of two padded parts. -/
theorem decodeName_padded {base : List UInt8} (fits : base.length ≤ 8) (suffix : List UInt8) :
    decodeName (entryName base suffix) =
      (joinName (base.takeWhile (· ≠ 0x20)) (suffix.takeWhile (· ≠ 0x20))).takeWhile (· ≠ 0) := by
  have left : (entryName base suffix).take 8 = padded 8 base := List.take_left' (padded_length fits)
  have right : (entryName base suffix).drop 8 = padded 3 suffix := List.drop_left' (padded_length fits)
  simp only [decodeName, left, right, padded_takeWhile, joinName]

theorem mem_joinName {base suffix : List UInt8} {c : UInt8} (member : c ∈ joinName base suffix) :
    c ∈ base ++ suffix ∨ c = 0x2E := by
  unfold joinName at member
  split at member
  · exact Or.inl (List.mem_append_left suffix (by simpa using member))
  · simp only [List.mem_append, List.mem_cons] at member ⊢
    tauto

/-- Parts without spaces are found again. -/
theorem decodeName_entryName {base suffix : List UInt8} (fits : base.length ≤ 8)
    (plain : ∀ c ∈ base ++ suffix, c ≠ 0 ∧ c ≠ 0x20) : decodeName (entryName base suffix) = joinName base suffix := by
  have whole {part : List UInt8} (sub : ∀ c ∈ part, c ∈ base ++ suffix) : part.takeWhile (· ≠ 0x20) = part :=
    List.takeWhile_eq_self_iff.mpr fun c member => by simp [(plain c (sub c member)).2]
  rw [decodeName_padded fits, whole fun c => List.mem_append_left suffix, whole fun c => List.mem_append_right base]
  refine List.takeWhile_eq_self_iff.mpr fun c member => ?_
  rcases mem_joinName member with inside | rfl
  · simp [(plain c inside).1]
  · decide

/-- The base of a joined name ends at its first dot. -/
theorem takeWhile_joinName {base : List UInt8} (noDot : 0x2E ∉ base) (suffix : List UInt8) :
    (joinName base suffix).takeWhile (· ≠ 0x2E) = base := by
  have all : ∀ c ∈ base, decide (c ≠ 0x2E) = true := fun c member => by
    simp only [decide_eq_true_eq]
    rintro rfl
    exact noDot member
  rw [joinName, List.takeWhile_append_of_pos all]
  split
  · simp
  · simp

/-- A joined name is stored part by part, in upper case. -/
theorem fatFormatName_joinName {base suffix : List UInt8} (fits : base.length ≤ 8) (fits' : suffix.length ≤ 3)
    (noDot : 0x2E ∉ base) (some : joinName base suffix ≠ []) :
    fatFormatName (joinName base suffix) = Option.some (entryName (base.map upper) (suffix.map upper)) := by
  have front : ((joinName base suffix).takeWhile (· ≠ 0x2E)).take 8 = base := by
    rw [takeWhile_joinName noDot, List.take_of_length_le fits]
  have back : (joinName base suffix).drop base.length = if suffix = [] then [] else 0x2E :: suffix := by
    rw [joinName, List.drop_left]
  have tail : ((if ((joinName base suffix).drop base.length).head? = Option.some 0x2E then
      ((joinName base suffix).drop base.length).tail else (joinName base suffix).drop base.length)).take 3 = suffix := by
    rw [back]
    by_cases none : suffix = []
    · simp [none]
    · simp [none, List.take_of_length_le fits']
  simp only [fatFormatName, if_neg some, front, tail]
  rfl

/-- A letter becomes a capital one, and everything else stays. -/
theorem upper_cases (c : UInt8) :
    (¬ (0x61 ≤ c ∧ c ≤ 0x7A) ∧ upper c = c) ∨ (0x41 ≤ (upper c).toNat ∧ (upper c).toNat ≤ 0x5A) := by
  by_cases lower : 0x61 ≤ c ∧ c ≤ 0x7A
  · have low := UInt8.le_iff_toNat_le.mp lower.1
    have high := UInt8.le_iff_toNat_le.mp lower.2
    rw [upper, if_pos lower, UInt8.toNat_add, UInt8.toNat_sub_of_le _ _ lower.1]
    simp at low high ⊢
    omega
  · exact Or.inl ⟨lower, if_neg lower⟩

/-- A byte that is no letter comes from itself only. -/
theorem upper_eq {c d : UInt8} (same : upper c = d) (other : d.toNat < 0x41 ∨ 0x5A < d.toNat) : c = d := by
  rcases upper_cases c with ⟨_, stays⟩ | letter
  · rw [← same, stays]
  · rw [same] at letter
    omega

theorem upper_not_lower (c : UInt8) : ¬ (0x61 ≤ upper c ∧ upper c ≤ 0x7A) := by
  rcases upper_cases c with ⟨stays, same⟩ | ⟨_, high⟩
  · rwa [same]
  · intro lower
    have low := UInt8.le_iff_toNat_le.mp lower.1
    simp at low
    omega

/-- The two parts that a name is cut into. -/
theorem fatFormatName_parts {text raw : List UInt8} (encoded : fatFormatName text = some raw) :
    ∃ base suffix : List UInt8, base.length ≤ 8 ∧ suffix.length ≤ 3 ∧ 0x2E ∉ base ∧ (∀ c ∈ base ++ suffix, c ∈ text) ∧
      raw = entryName (base.map upper) (suffix.map upper) := by
  unfold fatFormatName at encoded
  split at encoded
  · cases encoded
  · cases Option.some.inj encoded
    refine ⟨_, _, List.length_take_le 8 _, List.length_take_le 3 _, fun dot => ?_, fun c member => ?_, rfl⟩
    · simpa using List.mem_takeWhile_imp (List.mem_of_mem_take dot)
    · rcases List.mem_append.mp member with front | back
      · exact (List.takeWhile_prefix _).subset (List.mem_of_mem_take front)
      · have rest := List.mem_of_mem_take back
        split at rest
        · exact List.mem_of_mem_drop (List.mem_of_mem_tail rest)
        · exact List.mem_of_mem_drop rest

theorem fatFormatName_length {text raw : List UInt8} (encoded : fatFormatName text = some raw) : raw.length = 11 := by
  obtain ⟨base, suffix, fits, fits', _, _, rfl⟩ := fatFormatName_parts encoded
  rw [entryName, List.length_append, padded_length (by simpa using fits), padded_length (by simpa using fits')]

/-- The encoding of a C string does not start with 0. -/
theorem fatFormatName_head {text raw : List UInt8} (encoded : fatFormatName text = some raw) (string : 0 ∉ text) :
    raw.head? ≠ some 0 := by
  obtain ⟨base, suffix, _, _, _, inside, rfl⟩ := fatFormatName_parts encoded
  cases base with
  | nil => exact fun zero => absurd (Option.some.inj zero) (by decide)
  | cons c rest =>
    intro zero
    have same := upper_eq (Option.some.inj zero) (by decide)
    exact string (same ▸ inside c (by simp))

/-- Different parts are different names. -/
theorem joinName_parts {base base' suffix suffix' : List UInt8} (noDot : 0x2E ∉ base) (noDot' : 0x2E ∉ base')
    (same : joinName base suffix = joinName base' suffix') : base = base' ∧ suffix = suffix' := by
  have bases : base = base' := by rw [← takeWhile_joinName noDot suffix, same, takeWhile_joinName noDot']
  subst bases
  refine ⟨rfl, ?_⟩
  have rest := List.append_cancel_left same
  by_cases none : suffix = []
  · by_cases none' : suffix' = []
    · rw [none, none']
    · simp [none, none'] at rest
  · by_cases none' : suffix' = []
    · simp [none, none'] at rest
    · simpa [none, none'] using rest

namespace NameParts
variable {base suffix : List UInt8}

theorem base_bytes (parts : NameParts base suffix) : ∀ c ∈ base, NameByte c := fun c member =>
  parts.bytes c (List.mem_append_left suffix member)

theorem joinName_length (parts : NameParts base suffix) : (joinName base suffix).length ≤ 12 := by
  have left := parts.base_le
  have right := parts.suffix_le
  unfold joinName
  split
  · simp only [List.append_nil]
    omega
  · simp only [List.length_append, List.length_cons]
    omega

theorem noDot (parts : NameParts base suffix) : 0x2E ∉ base := fun member => (parts.base_bytes _ member).2.2 rfl

/-- The reader of the root directory finds the two parts again. -/
theorem decodeName_eq (parts : NameParts base suffix) : decodeName (entryName base suffix) = joinName base suffix :=
  decodeName_entryName parts.base_le fun c member => ⟨(parts.bytes c member).1, (parts.bytes c member).2.1⟩

/-- A joined name is stored part by part, in upper case. -/
theorem fatFormatName_eq (parts : NameParts base suffix) (nonempty : base ≠ []) :
    fatFormatName (joinName base suffix) = some (entryName (base.map upper) (suffix.map upper)) :=
  fatFormatName_joinName parts.base_le parts.suffix_le parts.noDot (by simp [joinName, nonempty])

/-- Different parts are different names. -/
theorem joinName_injective (parts : NameParts base suffix) {base' suffix' : List UInt8}
    (parts' : NameParts base' suffix')
    (same : joinName base suffix = joinName base' suffix') : base = base' ∧ suffix = suffix' :=
  joinName_parts parts.noDot parts'.noDot same

end NameParts

namespace ShortName
variable {name base suffix : List UInt8}

theorem map_upper (short : ShortName name base suffix) : base.map upper = base ∧ suffix.map upper = suffix := by
  have fixed {part : List UInt8} (sub : ∀ c ∈ part, c ∈ base ++ suffix) : part.map upper = part := by
    refine (List.map_congr_left fun c member => ?_).trans (List.map_id part)
    exact if_neg (short.noLower c (sub c member))
  exact ⟨fixed fun c member => List.mem_append_left suffix member,
    fixed fun c member => List.mem_append_right base member⟩

/-- A short name is stored part by part. -/
theorem fatFormatName_eq (short : ShortName name base suffix) : fatFormatName name = some (entryName base suffix) := by
  rw [short.joined, short.toNameParts.fatFormatName_eq short.nonempty, short.map_upper.1, short.map_upper.2]

/-- The first byte of a stored name marks neither the end nor a deleted entry. -/
theorem first_byte (short : ShortName name base suffix) :
    ∃ c, (entryName base suffix).head? = some c ∧ c ≠ 0 ∧ c ≠ 0xE5 := by
  obtain ⟨c, rest, rfl⟩ := List.exists_cons_of_ne_nil short.nonempty
  exact ⟨c, rfl, (short.base_bytes c List.mem_cons_self).1, fun same => short.used (by rw [same]; rfl)⟩

end ShortName

end LearningOS
