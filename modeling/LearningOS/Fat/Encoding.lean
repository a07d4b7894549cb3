import LearningOS.Fat.Names
import LearningOS.Fat.Root
import LearningOS.Storage.Requests

namespace LearningOS
open ByteStore

/-- A base and an extension of upper-case characters are the same in an entry and in the
name that is shown of it, whichever of the two is made from the other. -/
theorem fat_name_round_trip {base suffix : List UInt8} (parts : NameParts base suffix) (nonempty : base ≠ [])
    (noLower : ∀ c ∈ base ++ suffix, ¬ (0x61 ≤ c ∧ c ≤ 0x7A)) :
    fatFormatName (decodeName (entryName base suffix)) = some (entryName base suffix) ∧
      (base.head? ≠ some 0xE5 → ∃ raw, fatFormatName (joinName base suffix) = some raw ∧
        decodeName raw = joinName base suffix ∧
          ∀ sector i files, window sector (32 * i) 11 = raw → sector (32 * i + 11) ≠ 0x0F →
            sector (32 * i + 11) &&& 0x08 = 0 →
              parseEntries sector [i] files = addInfo files ⟨joinName base suffix, load32 sector (32 * i + 28),
                load16 sector (32 * i + 20) * 65536 + load16 sector (32 * i + 26)⟩) := by
  have decoded := parts.decodeName_eq
  have upperCase : base.map upper = base ∧ suffix.map upper = suffix := by
    have fixed {part : List UInt8} (sub : ∀ c ∈ part, c ∈ base ++ suffix) : part.map upper = part :=
      (List.map_congr_left fun c member => if_neg (noLower c (sub c member))).trans (List.map_id part)
    exact ⟨fixed fun c member => List.mem_append_left suffix member,
      fixed fun c member => List.mem_append_right base member⟩
  have encoded : fatFormatName (joinName base suffix) = some (entryName base suffix) := by
    rw [parts.fatFormatName_eq nonempty, upperCase.1, upperCase.2]
  refine ⟨by rw [decoded, encoded], fun used => ⟨entryName base suffix, encoded, decoded, ?_⟩⟩
  intro sector i files raw long label
  have short : ShortName (joinName base suffix) base suffix := ⟨parts, rfl, nonempty, noLower, used⟩
  obtain ⟨c, head, nonzero, kept⟩ := short.first_byte
  have first : sector (32 * i) = c := by
    rw [← raw] at head
    exact Option.some.inj head
  simp only [parseEntries, first, if_neg nonzero, if_neg kept, if_neg long, label, ne_eq, not_true_eq_false, if_false,
    raw, decoded]
  rw [fatAddFile, List.take_of_length_le parts.joinName_length]
  rfl

/-- The name `README.TXT`. -/
theorem fat_name_round_trip_readme :
    fatFormatName (decodeName (entryName [0x52, 0x45, 0x41, 0x44, 0x4D, 0x45] [0x54, 0x58, 0x54])) =
      some (entryName [0x52, 0x45, 0x41, 0x44, 0x4D, 0x45] [0x54, 0x58, 0x54]) := by
  have bytes : ∀ c ∈ ([0x52, 0x45, 0x41, 0x44, 0x4D, 0x45] ++ [0x54, 0x58, 0x54] : List UInt8),
      c ≠ 0 ∧ c ≠ 0x20 ∧ c ≠ 0x2E := by decide +kernel
  exact (fat_name_round_trip ⟨by decide, by decide, bytes⟩ (by decide) (by decide +kernel)).1

/-- A name of the 8.3 form. -/
def ShortForm (name : List UInt8) : Prop :=
  ∃ base suffix, NameParts base suffix ∧ base ≠ [] ∧ name = joinName base suffix

theorem NameByte.upper {c : UInt8} (byte : NameByte c) : NameByte (upper c) := by
  refine ⟨fun same => byte.1 (upper_eq same (by decide)), fun same => byte.2.1 (upper_eq same (by decide)),
    fun same => byte.2.2 (upper_eq same (by decide))⟩

namespace NameParts
variable {base suffix : List UInt8}

theorem map_upper (parts : NameParts base suffix) : NameParts (base.map upper) (suffix.map upper) := by
  refine ⟨by simpa using parts.base_le, by simpa using parts.suffix_le, fun c member => ?_⟩
  rw [← List.map_append] at member
  obtain ⟨d, inside, rfl⟩ := List.mem_map.mp member
  exact (parts.bytes d inside).upper

theorem joinName_map_upper (base suffix : List UInt8) :
    (joinName base suffix).map upper = joinName (base.map upper) (suffix.map upper) := by
  by_cases none : suffix = []
  · simp [joinName, none]
  · simp [joinName, none, show upper 0x2E = 0x2E by decide]

end NameParts

/-- Names of the 8.3 form with one encoding differ in the case of letters only. -/
theorem ShortForm.encoding_injective {a b raw : List UInt8} (formA : ShortForm a) (formB : ShortForm b)
    (atA : fatFormatName a = some raw) (atB : fatFormatName b = some raw) : a.map upper = b.map upper := by
  obtain ⟨base, suffix, parts, nonempty, rfl⟩ := formA
  obtain ⟨base', suffix', parts', nonempty', rfl⟩ := formB
  rw [parts.fatFormatName_eq nonempty] at atA
  rw [parts'.fatFormatName_eq nonempty'] at atB
  have same := congrArg decodeName (Option.some.inj (atA.trans atB.symm))
  rw [parts.map_upper.decodeName_eq, parts'.map_upper.decodeName_eq] at same
  simp only [NameParts.joinName_map_upper, same]

/-- The search in a sector stops at an entry that has the name. -/
theorem findInSector_found {sector : Bytes} {name : List UInt8} {lba ent : Nat} {slots : List Nat} {free : Nat × Nat}
    (found : findInSector sector name lba slots free = .inl ent) : window sector ent 11 = name := by
  induction slots generalizing free with
  | nil => simp [findInSector] at found
  | cons e rest ih =>
    simp only [findInSector] at found
    split at found
    · split at found
      · simp at found
      · exact ih found
    · split at found
      · exact ih found
      · split at found
        · rename_i same
          cases Sum.inl.inj found
          exact same
        · exact ih found

theorem findRootLoop_found {fat : FatFs} {name : List UInt8} {is : List Nat} {dev dev' : StorageDevice}
    {free : Nat × Nat} {sector offset : Nat}
    (found : findRootLoop fat name is dev free = (dev', .found sector offset)) :
    window (sectorAt dev.disk sector) offset 11 = name := by
  induction is generalizing dev free with
  | nil =>
    simp only [findRootLoop] at found
    split at found
    · simp at found
    · simp at found
  | cons i rest ih =>
    obtain ⟨dev₁, disk, read | read⟩ := dev.readSector_cases (u32 (fat.rootDirSector + i))
    · simp only [findRootLoop, read] at found
      split at found
      · simp at found
      · simp at found
    · simp only [findRootLoop, read] at found
      cases hit : findInSector (sectorAt dev.disk (u32 (fat.rootDirSector + i))) name (u32 (fat.rootDirSector + i))
          (List.range (fat.bytesPerSector / 32)) free with
      | inl ent =>
        simp only [hit, Prod.mk.injEq, RootSlot.found.injEq] at found
        obtain ⟨_, rfl, rfl⟩ := found
        exact findInSector_found hit
      | inr free =>
        simp only [hit] at found
        rw [← disk]
        exact ih found

/-- Two names that address different entries wherever both are accepted and differ in more
than the case of letters, and that are rejected where they are not of the 8.3 form. -/
structure NamesApart (a b : List UInt8) : Prop where
  differ : ∀ raw raw', fatFormatName a = some raw → fatFormatName b = some raw' → a.map upper ≠ b.map upper → raw ≠ raw'
  spared : ∀ raw raw' fat dev dev' sector offset, fatFormatName a = some raw → fatFormatName b = some raw' →
    a.map upper ≠ b.map upper → fatFindRootEntry fat dev raw' = (dev', .found sector offset) →
      window (sectorAt dev.disk sector) offset 11 ≠ raw
  rejected : (¬ ShortForm a → fatFormatName a = none) ∧ (¬ ShortForm b → fatFormatName b = none)

theorem fatFormatName_eq_none {name : List UInt8} : fatFormatName name = none ↔ name = [] := by
  unfold fatFormatName
  split
  · simpa
  · simpa

/-- Two names are kept apart exactly if each of them is empty or of the 8.3 form. -/
theorem fat_names_apart_iff (a b : List UInt8) :
    NamesApart a b ↔ (a = [] ∨ ShortForm a) ∧ (b = [] ∨ ShortForm b) := by
  constructor
  · intro apart
    have fits {name : List UInt8} (rejects : ¬ ShortForm name → fatFormatName name = none) :
        name = [] ∨ ShortForm name := by
      by_cases form : ShortForm name
      · exact Or.inr form
      · exact Or.inl (fatFormatName_eq_none.mp (rejects form))
    exact ⟨fits apart.rejected.1, fits apart.rejected.2⟩
  · rintro ⟨formA, formB⟩
    have form {name raw : List UInt8} (fits : name = [] ∨ ShortForm name) (accepted : fatFormatName name = some raw) :
        ShortForm name := by
      refine fits.resolve_left fun empty => ?_
      rw [fatFormatName_eq_none.mpr empty] at accepted
      simp at accepted
    have differ (raw raw' : List UInt8) (atA : fatFormatName a = some raw) (atB : fatFormatName b = some raw')
        (other : a.map upper ≠ b.map upper) : raw ≠ raw' := by
      rintro rfl
      exact other ((form formA atA).encoding_injective (form formB atB) atA atB)
    refine ⟨differ, fun raw raw' fat dev dev' sector offset atA atB other found same => ?_, fun long => ?_,
      fun long => ?_⟩
    · rw [findRootLoop_found found] at same
      exact differ raw raw' atA atB other same.symm
    · exact fatFormatName_eq_none.mpr (formA.resolve_right long)
    · exact fatFormatName_eq_none.mpr (formB.resolve_right long)

/-- `ABCDEFGHI` and `ABCDEFGH.I` share an entry. -/
theorem fat_names_collide :
    ¬ ∀ a b raw raw' : List UInt8, 0 ∉ a → 0 ∉ b → fatFormatName a = some raw → fatFormatName b = some raw' →
      a.map upper ≠ b.map upper → raw ≠ raw' := by
  intro claim
  exact claim [0x41, 0x42, 0x43, 0x44, 0x45, 0x46, 0x47, 0x48, 0x49]
    [0x41, 0x42, 0x43, 0x44, 0x45, 0x46, 0x47, 0x48, 0x2E, 0x49]
    [0x41, 0x42, 0x43, 0x44, 0x45, 0x46, 0x47, 0x48, 0x49, 0x20, 0x20]
    [0x41, 0x42, 0x43, 0x44, 0x45, 0x46, 0x47, 0x48, 0x49, 0x20, 0x20]
    (by decide) (by decide) (by decide) (by decide) (by decide) rfl

end LearningOS
