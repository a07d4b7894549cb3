import LearningOS.Fat.Durable
import LearningOS.Fat.Encoding

namespace LearningOS
open ByteStore

/-- Two parts of a name that an entry shows as they were given. The extension may have
dots. -/
structure KeptParts (base suffix : List UInt8) : Prop where
  base_le : base.length ≤ 8
  suffix_le : suffix.length ≤ 3
  noDot : 0x2E ∉ base
  plain : ∀ c ∈ base ++ suffix, c ≠ 0 ∧ c ≠ 0x20 ∧ ¬ (0x61 ≤ c ∧ c ≤ 0x7A)

/-- A name that the listing shows as it was given to `fat_write_file`. -/
def KeptName (text : List UInt8) : Prop :=
  (∃ base suffix, KeptParts base suffix ∧ text = joinName base suffix) ∧ text.head? ≠ some 0xE5

/-- After the write of `buffer` under `text`, the listing finds the new entry under the same
string, and reading returns the bytes. -/
structure FoundAgain (s' : FatState) (text buffer : List UInt8) : Prop where
  listed : ∃ i, i < s'.fat.slots ∧ fatFormatName text = some (s'.fat.slotName s'.dev.disk i) ∧
    s'.files.find? (fun fi => fi.name = text) = some (s'.fat.slotInfo s'.dev.disk i)
  reads : ∀ max, buffer.length ≤ max → 0 < max →
    ∃ t, fatReadFile s' (some text) true max = .ok (t, (buffer.length : Int), buffer)

variable {text raw base suffix buffer : List UInt8}

theorem decodeName_length (eleven : raw.length = 11) : (decodeName raw).length ≤ 12 := by
  have front : ((raw.take 8).takeWhile (· ≠ 0x20)).length ≤ 8 :=
    (List.takeWhile_prefix _).length_le.trans (List.length_take_le 8 raw)
  have back : ((raw.drop 8).takeWhile (· ≠ 0x20)).length ≤ 3 := by
    have whole := (List.takeWhile_prefix (fun c : UInt8 => c ≠ 0x20) (l := raw.drop 8)).length_le
    rw [List.length_drop] at whole
    omega
  refine (List.takeWhile_prefix _).length_le.trans ?_
  rw [List.length_append]
  split
  · rw [List.length_nil]
    omega
  · rw [List.length_cons]
    omega

theorem KeptParts.fatFormatName_eq (parts : KeptParts base suffix) (some : joinName base suffix ≠ []) :
    fatFormatName (joinName base suffix) = Option.some (entryName base suffix) := by
  have fixed {part : List UInt8} (sub : ∀ c ∈ part, c ∈ base ++ suffix) : part.map upper = part :=
    (List.map_congr_left fun c member => if_neg (parts.plain c (sub c member)).2.2).trans (List.map_id part)
  rw [fatFormatName_joinName parts.base_le parts.suffix_le parts.noDot some,
    fixed fun c => List.mem_append_left suffix, fixed fun c => List.mem_append_right base]

theorem KeptParts.decodeName_eq (parts : KeptParts base suffix) :
    decodeName (entryName base suffix) = joinName base suffix :=
  decodeName_entryName parts.base_le fun c member => ⟨(parts.plain c member).1, (parts.plain c member).2.1⟩

/-- What an entry shows of the encoding of a C string has parts that are kept. -/
theorem decodeName_parts (encoded : fatFormatName text = some raw) (string : 0 ∉ text) :
    ∃ base suffix, KeptParts base suffix ∧ decodeName raw = joinName base suffix := by
  obtain ⟨base, suffix, fits, fits', noDot, inside, rfl⟩ := fatFormatName_parts encoded
  have sub {part : List UInt8} {c : UInt8} (member : c ∈ (part.map upper).takeWhile (· ≠ 0x20)) :
      c ∈ part.map upper := (List.takeWhile_prefix _).subset member
  have plain {part : List UInt8} (within : ∀ c ∈ part, c ∈ text) {c : UInt8}
      (member : c ∈ (part.map upper).takeWhile (· ≠ 0x20)) : c ≠ 0 ∧ c ≠ 0x20 ∧ ¬ (0x61 ≤ c ∧ c ≤ 0x7A) := by
    obtain ⟨d, atD, rfl⟩ := List.mem_map.mp (sub member)
    refine ⟨fun zero => string ?_, by simpa using List.mem_takeWhile_imp member, upper_not_lower d⟩
    rw [← upper_eq zero (by decide)]
    exact within d atD
  have baseIn : ∀ c ∈ base, c ∈ text := fun c member => inside c (List.mem_append_left suffix member)
  have suffixIn : ∀ c ∈ suffix, c ∈ text := fun c member => inside c (List.mem_append_right base member)
  have parts : KeptParts ((base.map upper).takeWhile (· ≠ 0x20)) ((suffix.map upper).takeWhile (· ≠ 0x20)) := by
    refine ⟨(List.takeWhile_prefix _).length_le.trans (by simpa using fits),
      (List.takeWhile_prefix _).length_le.trans (by simpa using fits'), fun dot => ?_, fun c member => ?_⟩
    · obtain ⟨d, atD, same⟩ := List.mem_map.mp (sub dot)
      rw [upper_eq same (by decide)] at atD
      exact noDot atD
    · rcases List.mem_append.mp member with front | back
      · exact plain baseIn front
      · exact plain suffixIn back
  refine ⟨_, _, parts, ?_⟩
  rw [decodeName_padded (by simpa using fits)]
  refine List.takeWhile_eq_self_iff.mpr fun c member => ?_
  rcases mem_joinName member with member | rfl
  · simpa using (parts.plain c member).1
  · decide

/-- An entry shows its own name exactly if the name has parts that are kept. -/
theorem decodeName_eq_iff (encoded : fatFormatName text = some raw) (string : 0 ∉ text) :
    decodeName raw = text ↔ ∃ base suffix, KeptParts base suffix ∧ text = joinName base suffix := by
  constructor
  · intro same
    obtain ⟨base, suffix, parts, shown⟩ := decodeName_parts encoded string
    exact ⟨base, suffix, parts, same.symm.trans shown⟩
  · rintro ⟨base, suffix, parts, rfl⟩
    have some : joinName base suffix ≠ [] := by
      intro empty
      rw [fatFormatName_eq_none.mpr empty] at encoded
      cases encoded
    rw [← Option.some.inj ((parts.fatFormatName_eq some).symm.trans encoded), parts.decodeName_eq]

theorem head?_takeWhile {p : UInt8 → Bool} {l : List UInt8} {c : UInt8} (first : (l.takeWhile p).head? = some c) :
    l.head? = some c := by
  obtain ⟨rest, same⟩ := List.takeWhile_prefix p (l := l)
  rw [← same, List.head?_append, first]
  rfl

/-- A shown name starts like its entry, or with the dot. -/
theorem decodeName_head {c : UInt8} (first : (decodeName raw).head? = some c) : c = 0x2E ∨ raw.head? = some c := by
  have joined := head?_takeWhile first
  rw [List.head?_append] at joined
  cases front : ((raw.take 8).takeWhile (· ≠ 0x20)).head? with
  | some b =>
    rw [front] at joined
    refine Or.inr ?_
    have start := head?_takeWhile front
    rw [List.head?_take] at start
    split at start
    · cases start
    · rw [start, ← joined]
      rfl
  | none =>
    rw [front, Option.none_or] at joined
    split at joined
    · cases joined
    · exact Or.inl (Option.some.inj joined).symm

theorem KeptParts.head (base suffix : List UInt8) {c : UInt8} (other : c ≠ 0x20)
    (first : (entryName base suffix).head? = some c) : (joinName base suffix).head? = some c := by
  cases base with
  | nil => exact absurd (Option.some.inj first).symm other
  | cons b rest => exact first

/-- A shown entry does not start with the mark of a deleted one. -/
theorem FatFs.Visible.head {fat : FatFs} {m : Bytes} {i : Nat} (shown : fat.Visible m i)
    (named : (fat.slotInfo m i).name = text) : text.head? ≠ some 0xE5 := by
  have eleven : (fat.slotName m i).length = 11 := window_length _ _ _
  rw [FatFs.slotInfo, List.take_of_length_le (decodeName_length eleven)] at named
  intro mark
  rw [← named] at mark
  rcases decodeName_head mark with dot | first
  · exact absurd dot (by decide)
  · exact shown.1.2.1 (Option.some.inj first)

theorem fatWriteFile_encodes {s s' : FatState} (run : fatWriteFile s (some text) (some buffer) = .ok (s', 0)) :
    ∃ raw, fatFormatName text = some raw := by
  cases encoded : fatFormatName text with
  | some raw => exact ⟨raw, rfl⟩
  | none =>
    have refused : (some text).bind fatFormatName = none := encoded
    rw [fatWriteFile_refused s (Or.inl refused)] at run
    simp at run

namespace StoredAs
variable {s s' : FatState} {i first : Nat} {cs : List Nat}

/-- The listing finds the new entry under a name with parts that are kept. -/
theorem found (file : StoredAs s s' raw buffer i first cs) (volume : FatVolume s.dev s.fat)
    (few : ((List.range s.fat.slots).filter fun j => s.fat.Visible s.dev.disk j).length < 32)
    (encoded : fatFormatName text = some raw) (string : 0 ∉ text) (kept : KeptName text) :
    s'.files.find? (fun fi => fi.name = text) = some (s'.fat.slotInfo s'.dev.disk i) := by
  obtain ⟨⟨base, suffix, parts, joined⟩, used⟩ := kept
  have own := (decodeName_eq_iff encoded string).mpr ⟨base, suffix, parts, joined⟩
  have some : joinName base suffix ≠ [] := by
    rintro empty
    rw [joined, fatFormatName_eq_none.mpr empty] at encoded
    cases encoded
  have raw_eq : raw = entryName base suffix := by
    rw [joined, parts.fatFormatName_eq some] at encoded
    exact (Option.some.inj encoded).symm
  have shown := file.written.shown_iff.mpr ⟨fatFormatName_head encoded string, fun mark => used (by
    rw [joined]
    rw [raw_eq] at mark
    exact KeptParts.head base suffix (by decide) mark)⟩
  have named : (decodeName raw).take 12 = text := by
    rw [List.take_of_length_le (decodeName_length (fatFormatName_length encoded))]
    exact own
  have only (base' suffix' : List UInt8) (parts' : NameParts base' suffix') (same : joinName base' suffix' = text) :
      entryName base' suffix' = raw := by
    obtain ⟨rfl, rfl⟩ := joinName_parts parts'.noDot parts.noDot (same.trans joined)
    exact raw_eq.symm
  have listed := file.written.listed_as shown named only file.target file.inside volume.names volume.distinct few
  rw [file.state]
  exact listed

/-- What the listing finds under a name is shown. -/
theorem shown (file : StoredAs s s' raw buffer i first cs) {info : FatFileInfo}
    (found : s'.files.find? (fun fi => fi.name = text) = some info) : text.head? ≠ some 0xE5 := by
  have member := List.mem_of_find?_eq_some found
  have named : info.name = text := by simpa using List.find?_some found
  rw [file.state] at member
  obtain ⟨k, within, rfl⟩ := List.mem_map.mp (List.mem_of_mem_take member)
  have visible : s.fat.Visible s'.dev.disk k := by simpa using (List.mem_filter.mp within).2
  exact visible.head named

end StoredAs

/-- On a well-formed volume, a file that `fat_write_file` has stored is found under the same
string exactly if the name has parts that are kept, and its size is an `int`. -/
theorem fat_write_found_again_iff {s₀ s s' : FatState} {fat : FatFs} (volume : FatVolume s₀.dev fat)
    (works : s₀.dev.Works) (mounted : fatInit s₀ = .ok s)
    (few : ((List.range fat.slots).filter fun j => fat.Visible s₀.dev.disk j).length < 32) (string : 0 ∉ text)
    (run : fatWriteFile s (some text) (some buffer) = .ok (s', 0)) :
    FoundAgain s' text buffer ↔ KeptName text ∧ buffer.length < 2 ^ 31 := by
  rw [volume.fatInit_eq works] at mounted
  cases Except.ok.inj mounted
  have volume' : FatVolume (FatState.mk s₀.dev fat (fat.rootFiles s₀.dev.disk)).dev fat := volume
  have sound := volume.sound
  obtain ⟨raw, encoded⟩ := fatWriteFile_encodes run
  have noWrap (size : buffer.length < 2 ^ 31) : buffer.length + fat.clusterBytes ≤ 2 ^ 32 := by
    have small := sound.small
    have many := Nat.mul_le_mul_right fat.sectorsPerCluster sound.many
    unfold FatFs.clusterBytes
    omega
  have stored (size : buffer.length < 2 ^ 31) :=
    volume'.storedAs works encoded (fatFormatName_head encoded string) (noWrap size) run
  constructor
  · rintro ⟨⟨j, _, same, found⟩, reads⟩
    obtain ⟨t, read⟩ := reads (max buffer.length 1) (by omega) (by omega)
    have size : buffer.length < 2 ^ 31 := by
      rcases fatReadFile_result read with error | ⟨_, result⟩
      · omega
      · unfold toInt32 at result
        split at result
        · assumption
        · omega
    obtain ⟨i, first, cs, file⟩ := stored size
    have named : (s'.fat.slotInfo s'.dev.disk j).name = text := by simpa using List.find?_some found
    have eleven := fatFormatName_length same
    rw [FatFs.slotInfo, List.take_of_length_le (decodeName_length eleven)] at named
    exact ⟨⟨(decodeName_eq_iff same string).mp named, file.shown found⟩, size⟩
  · rintro ⟨kept, size⟩
    obtain ⟨i, first, cs, file⟩ := stored size
    have found := file.found volume' few encoded string kept
    have mounted : s'.fat = fat := by rw [file.state]
    refine ⟨⟨i, by rw [mounted]; exact file.inside, ?_, found⟩, fun max room some => ⟨s', ?_⟩⟩
    · rw [encoded, mounted]
      exact congrArg some file.written.name.symm
    · have reads := volume'.reads_listed works (noWrap size) file found room some
      rwa [toInt32, if_pos size] at reads

theorem fat_write_found_again_emptyDisk :
    ∃ s', fatWriteFile emptyDisk (some [0x41]) (some [7]) = .ok (s', 0) ∧ FoundAgain s' [0x41] [7] := by
  obtain ⟨s', run⟩ := emptyDisk_writes [7] (by decide)
  have parts : KeptParts [0x41] [] := ⟨by decide, by decide, by decide, fun c member => by
    cases List.mem_singleton.mp member
    decide⟩
  exact ⟨s', run, (fat_write_found_again_iff emptyDisk_volume emptyDisk_works emptyDisk_mounted emptyDisk_few (by decide)
    run).mpr ⟨⟨⟨[0x41], [], parts, rfl⟩, by decide⟩, by decide⟩⟩

/-- A file written as `a` is listed as `A`, and not found as `a`. -/
theorem fat_write_lower_case_lost :
    ¬ ∀ (s₀ s s' : FatState) (fat : FatFs) (text buffer : List UInt8), FatVolume s₀.dev fat → s₀.dev.Works →
      fatInit s₀ = .ok s → ((List.range fat.slots).filter fun j => fat.Visible s₀.dev.disk j).length < 32 →
      0 ∉ text → fatWriteFile s (some text) (some buffer) = .ok (s', 0) → FoundAgain s' text buffer := by
  intro claim
  have encoded : fatFormatName [0x61] = some (0x41 :: List.replicate 10 0x20) := by decide
  obtain ⟨s', run⟩ := emptyDisk_stores encoded [7] (by decide)
  obtain ⟨j, _, same, found⟩ := (claim emptyDisk emptyDisk s' sampleFat [0x61] [7] emptyDisk_volume emptyDisk_works
    emptyDisk_mounted emptyDisk_few (by decide) run).listed
  have named : (s'.fat.slotInfo s'.dev.disk j).name = [0x61] := by simpa using List.find?_some found
  rw [FatFs.slotInfo, ← Option.some.inj (encoded.symm.trans same)] at named
  have shown : (decodeName (0x41 :: List.replicate 10 0x20)).take 12 = [0x61] := named
  exact absurd shown (by decide)

end LearningOS
