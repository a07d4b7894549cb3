import LearningOS.Fat.Cache
import LearningOS.Fat.Failure
import LearningOS.Fat.Mirror

namespace LearningOS
open ByteStore

/-- The files of a volume by the eleven bytes of their names. -/
abbrev FileMap := List UInt8 → Option (List UInt8)

namespace FatFs
variable (fat : FatFs) (m : Bytes)

/-- The clusters that an entry leads to; an entry whose first cluster is a mark has none. -/
def Clusters (i : Nat) (cs : List Nat) : Prop :=
  fat.slotCluster m i < 2 ∧ cs = [] ∨ fat.Chain m (fat.slotCluster m i) cs

/-- The bytes of an entry: those of its clusters, up to its size. -/
def Content (i : Nat) (bytes : List UInt8) : Prop :=
  ∃ cs, fat.Clusters m i cs ∧ bytes = (cs.flatMap (fat.clusterData m)).take (load32 m (fat.slotBase i + 28))

/-- Some entry that is shown has a name and some bytes. -/
def HasFile (raw bytes : List UInt8) : Prop :=
  ∃ i, i < fat.slots ∧ fat.Visible m i ∧ fat.slotName m i = raw ∧ fat.Content m i bytes

/-- How many entries of the root directory are shown. -/
def shown : Nat := ((List.range fat.slots).filter fun i => fat.Visible m i).length

end FatFs

/-- A volume that has been mounted: it is well formed, and listed as its root directory
is. -/
structure FatMounted (s : FatState) : Prop where
  volume : FatVolume s.dev s.fat
  works : s.dev.Works
  reserved : 0 < s.fat.reservedSectors
  listed : s.files = s.fat.rootFiles s.dev.disk

/-- The files that are on a volume. -/
def FatState.Represents (s : FatState) (files : FileMap) : Prop :=
  ∀ raw bytes, files raw = some bytes ↔ s.fat.HasFile s.dev.disk raw bytes

variable {fat : FatFs} {m m' : Bytes} {i : Nat} {cs ds : List Nat}

theorem FatFs.Clusters.unique (left : fat.Clusters m i cs) (right : fat.Clusters m i ds) : cs = ds := by
  rcases left with ⟨low, rfl⟩ | chain
  · rcases right with ⟨_, rfl⟩ | chain'
    · rfl
    · have member := chain'.inside _ chain'.head_mem
      exact absurd member.1 (by omega)
  · rcases right with ⟨low, _⟩ | chain'
    · have member := chain.inside _ chain.head_mem
      exact absurd member.1 (by omega)
    · exact chain.unique chain'

theorem FatFs.Clusters.inside (clusters : fat.Clusters m i cs) : ∀ c ∈ cs, fat.IsCluster c := by
  rcases clusters with ⟨_, rfl⟩ | chain
  · simp
  · exact chain.inside

theorem FatFs.Clusters.marked (clusters : fat.Clusters m i cs) : ∀ c ∈ cs, 2 ≤ fat.entry m c := by
  rcases clusters with ⟨_, rfl⟩ | chain
  · simp
  · exact chain.marked

theorem FatFs.Content.unique {bytes bytes' : List UInt8} (left : fat.Content m i bytes)
    (right : fat.Content m i bytes') : bytes = bytes' := by
  obtain ⟨cs, clusters, rfl⟩ := left
  obtain ⟨ds, clusters', rfl⟩ := right
  rw [clusters.unique clusters']

namespace FatFs.SameSlots
variable {j : Nat}

theorem load16 (same : fat.SameSlots m m' i) (inside : j < fat.slots) (other : j ≠ i) {k : Nat} (less : k + 2 ≤ 32) :
    ByteStore.load16 m' (fat.slotBase j + k) = ByteStore.load16 m (fat.slotBase j + k) := by
  simp only [ByteStore.load16, Nat.add_assoc, same j inside other k (by omega), same j inside other (k + 1) (by omega)]

theorem load32 (same : fat.SameSlots m m' i) (inside : j < fat.slots) (other : j ≠ i) {k : Nat} (less : k + 4 ≤ 32) :
    ByteStore.load32 m' (fat.slotBase j + k) = ByteStore.load32 m (fat.slotBase j + k) := by
  have low := same.load16 inside other (show k + 2 ≤ 32 by omega)
  have high := same.load16 inside other (show k + 2 + 2 ≤ 32 by omega)
  rw [← Nat.add_assoc] at high
  simp only [ByteStore.load32, low, high]

theorem slotCluster (same : fat.SameSlots m m' i) (inside : j < fat.slots) (other : j ≠ i) :
    fat.slotCluster m' j = fat.slotCluster m j := by
  simp only [FatFs.slotCluster, same.load16 inside other (show 20 + 2 ≤ 32 by omega),
    same.load16 inside other (show 26 + 2 ≤ 32 by omega)]

end FatFs.SameSlots

/-- The clusters of the target of a write are those its entry leads to, if it is in use. -/
theorem FatFs.Target.clusters {name : List UInt8} (target : fat.Target m name i cs) :
    cs = [] ∨ fat.InUse m i ∧ fat.Chain m (fat.slotCluster m i) cs := by
  cases target with
  | create _ _ _ empty => exact Or.inl empty
  | replace use _ holds =>
    rcases holds with ⟨_, empty⟩ | chain
    · exact Or.inl empty
    · exact Or.inr ⟨use, chain⟩

namespace StoredAs
variable {s s' : FatState} {raw buffer : List UInt8} {first j : Nat}

/-- The clusters of the new run were free, or those of the replaced file. -/
theorem run_free (file : StoredAs s s' raw buffer i first cs) (filled : buffer ≠ []) {c : Nat}
    (member : c ∈ List.range' first (s.fat.clustersNeeded buffer.length)) : s.fat.entry s.dev.disk c = 0 ∨ c ∈ cs := by
  rcases file.placed with ⟨empty, _⟩ | ⟨_, run⟩
  · exact absurd empty filled
  · obtain ⟨lower, upper⟩ := List.mem_range'_1.mp member
    exact ((FatFs.freeRun_freed file.target.nodup).mp run).2.2 c lower (by omega)

/-- The clusters of other files are neither freed nor taken. -/
theorem clusters_apart (file : StoredAs s s' raw buffer i first cs) (volume : FatVolume s.dev s.fat)
    (inside : j < s.fat.slots) (use : s.fat.InUse s.dev.disk j) (other : j ≠ i)
    (clusters : s.fat.Clusters s.dev.disk j ds) : ds.Disjoint cs := by
  rcases file.target.clusters with rfl | ⟨use', chain'⟩
  · exact List.disjoint_nil_right ds
  · rcases clusters with ⟨_, rfl⟩ | chain
    · exact List.disjoint_nil_left cs
    · exact volume.disjoint j i ds cs inside file.inside use use' other chain chain'

variable {base suffix : List UInt8} (noWrap : buffer.length + s.fat.clusterBytes ≤ 2 ^ 32)
include noWrap

/-- Other files keep their clusters, with their bytes. -/
theorem clusters_kept (file : StoredAs s s' (entryName base suffix) buffer i first cs) (volume : FatVolume s.dev s.fat)
    (inside : j < s.fat.slots) (use : s.fat.InUse s.dev.disk j) (other : j ≠ i)
    (clusters : s.fat.Clusters s.dev.disk j ds) :
    s.fat.Clusters s'.dev.disk j ds ∧ ∀ c ∈ ds, s.fat.clusterData s'.dev.disk c = s.fat.clusterData s.dev.disk c := by
  have apart := file.clusters_apart volume inside use other clusters
  have kept (c : Nat) (member : c ∈ ds) := volume.cluster_kept noWrap
    ⟨file.inside, file.target, file.placed, file.written, file.state⟩ (clusters.inside c member)
    (by have := clusters.marked c member; omega) (apart member)
  refine ⟨?_, fun c member => (kept c member).2⟩
  unfold FatFs.Clusters at clusters ⊢
  rw [file.written.others.slotCluster inside other]
  exact clusters.imp_right fun chain => chain.congr fun c member => (kept c member).1

/-- Other files keep their bytes. -/
theorem content_kept (file : StoredAs s s' (entryName base suffix) buffer i first cs) (volume : FatVolume s.dev s.fat)
    (inside : j < s.fat.slots) (use : s.fat.InUse s.dev.disk j) (other : j ≠ i) {bytes : List UInt8} :
    s.fat.Content s'.dev.disk j bytes ↔ s.fat.Content s.dev.disk j bytes := by
  obtain ⟨ds, clusters⟩ := volume.clusters_of inside use
  obtain ⟨clusters', data⟩ := file.clusters_kept noWrap volume inside use other clusters
  have size := file.written.others.load32 inside other (show 28 + 4 ≤ 32 by omega)
  have same : (ds.flatMap (s.fat.clusterData s'.dev.disk)).take (load32 s'.dev.disk (s.fat.slotBase j + 28)) =
      (ds.flatMap (s.fat.clusterData s.dev.disk)).take (load32 s.dev.disk (s.fat.slotBase j + 28)) := by
    rw [size, List.flatMap_congr data]
  constructor
  · intro content
    exact ⟨ds, clusters, (content.unique ⟨ds, clusters', rfl⟩).trans same⟩
  · intro content
    exact ⟨ds, clusters', (content.unique ⟨ds, clusters, rfl⟩).trans same.symm⟩

/-- The clusters of the new file. -/
theorem clusters_new (file : StoredAs s s' raw buffer i first cs) (volume : FatVolume s.dev s.fat) :
    ∃ ds, s.fat.Clusters s'.dev.disk i ds ∧ (∀ c ∈ ds, s.fat.entry s.dev.disk c = 0 ∨ c ∈ cs) ∧
      (ds.flatMap (s.fat.clusterData s'.dev.disk)).take buffer.length = buffer := by
  have sound := volume.sound
  by_cases empty : buffer = []
  · subst empty
    refine ⟨[], Or.inl ⟨?_, rfl⟩, by simp, rfl⟩
    rcases file.placed with ⟨_, zero⟩ | ⟨filled, _⟩
    · rw [file.written.cluster, zero]
      decide
    · exact absurd rfl filled
  · obtain ⟨chain, bytes⟩ := sound.stored_chain empty file.placed noWrap
    have fits := (sound.clustersNeeded_fits (List.length_pos_iff.mpr empty) noWrap).2
    have two := (chain.inside first chain.head_mem).1
    refine ⟨_, Or.inr ?_, fun c member => file.run_free empty member, ?_⟩
    · rw [file.written.cluster]
      exact chain.congr fun c member => file.written.entry c (chain.inside c member).2
    · rw [clusterData_run s.fat s'.dev.disk two, take_window, Nat.min_eq_left fits,
        window_congr fun x lower _ => file.written.data first x lower, bytes]

theorem content_new (file : StoredAs s s' raw buffer i first cs) (volume : FatVolume s.dev s.fat) :
    s.fat.Content s'.dev.disk i buffer := by
  obtain ⟨ds, clusters, _, bytes⟩ := file.clusters_new noWrap volume
  exact ⟨ds, clusters, by rw [file.written.size, bytes]⟩

end StoredAs

/-- An encoded name that is shown, with two parts that are found again. -/
structure FoundName (raw : List UInt8) : Prop where
  padded : PaddedName raw
  used : raw.head? ≠ some 0xE5

theorem PaddedName.head_ne {raw : List UInt8} (name : PaddedName raw) : raw.head? ≠ some 0 := by
  obtain ⟨base, suffix, parts, rfl⟩ := name
  cases base with
  | nil => exact fun zero => absurd (Option.some.inj zero) (by decide)
  | cons c rest => exact fun zero => (parts.bytes c (by simp)).1 (Option.some.inj zero)

theorem ShortName.foundName {text base suffix : List UInt8} (short : ShortName text base suffix) :
    FoundName (entryName base suffix) := by
  obtain ⟨c, head, _, used⟩ := short.first_byte
  refine ⟨⟨base, suffix, short.toNameParts, rfl⟩, ?_⟩
  rw [head]
  exact fun mark => used (Option.some.inj mark)

namespace StoredAs
variable {s s' : FatState} {raw buffer : List UInt8} {first j : Nat}

/-- The new entry is shown. -/
theorem visible (file : StoredAs s s' raw buffer i first cs) (plain : FoundName raw) :
    s.fat.Visible s'.dev.disk i := file.written.shown_iff.mpr ⟨plain.padded.head_ne, plain.used⟩

/-- No other entry in use has the name. -/
theorem name_ne (file : StoredAs s s' raw buffer i first cs) (volume : FatVolume s.dev s.fat) (inside : j < s.fat.slots)
    (use : s.fat.InUse s.dev.disk j) (other : j ≠ i) : s.fat.slotName s.dev.disk j ≠ raw := by
  intro same
  cases file.target with
  | create _ _ absent _ => exact absent j inside use same
  | replace use' same' _ => exact other (volume.distinct j i inside file.inside use use' (same.trans same'.symm))

variable (noWrap : buffer.length + s.fat.clusterBytes ≤ 2 ^ 32)
include noWrap

/-- The clusters of the new file are not those of another one. -/
theorem new_apart (file : StoredAs s s' raw buffer i first cs) (volume : FatVolume s.dev s.fat)
    (inside : j < s.fat.slots) (use : s.fat.InUse s.dev.disk j) (other : j ≠ i) {es : List Nat}
    (clusters : s.fat.Clusters s.dev.disk j ds) (new : s.fat.Clusters s'.dev.disk i es) : ds.Disjoint es := by
  obtain ⟨fs, clusters', free, _⟩ := file.clusters_new noWrap volume
  obtain rfl := new.unique clusters'
  intro c inDs inEs
  rcases free c inEs with zero | replaced
  · have marked := clusters.marked c inDs
    omega
  · exact file.clusters_apart volume inside use other clusters inDs replaced

/-- The volume stays well formed. -/
theorem fatVolume (file : StoredAs s s' raw buffer i first cs) (volume : FatVolume s.dev s.fat) (plain : FoundName raw)
    (layout : FatLayout s'.dev s.fat) : FatVolume s'.dev s.fat := by
  obtain ⟨base, suffix, parts, rfl⟩ := plain.padded
  have others := file.written.others
  have old {j : Nat} (inside : j < s.fat.slots) (other : j ≠ i) (use : s.fat.InUse s'.dev.disk j) :
      s.fat.InUse s.dev.disk j := (others.inUse inside other).mp use
  -- the clusters of an entry that is not the new one are those it had
  have chain {j : Nat} {ds : List Nat} (inside : j < s.fat.slots) (other : j ≠ i) (use : s.fat.InUse s.dev.disk j)
      (chain : s.fat.Chain s'.dev.disk (s.fat.slotCluster s'.dev.disk j) ds) :
      s.fat.Chain s.dev.disk (s.fat.slotCluster s.dev.disk j) ds := by
    obtain ⟨es, clusters⟩ := volume.clusters_of inside use
    have now := (file.clusters_kept noWrap volume inside use other clusters).1
    obtain rfl : ds = es := FatFs.Clusters.unique (Or.inr chain) now
    rcases clusters with ⟨_, rfl⟩ | chain'
    · exact absurd chain.head_mem (by simp)
    · exact chain'
  refine ⟨layout.boot, layout.type, layout.bytes, layout.fats, layout.regions, layout.device, layout.table,
    file.written.keeps_end plain.padded.head_ne file.target file.inside volume.ended, fun j inside shown => ?_,
    fun j k atJ atK useJ useK same => ?_, fun j inside use => ?_, fun j k ds es atJ atK useJ useK differ chainJ chainK => ?_⟩
  · by_cases other : j = i
    · rw [other, file.written.name]
      exact plain.padded
    · rw [others.slotName inside other]
      exact volume.names j inside ((others.visible inside other).mp shown)
  · by_cases newJ : j = i
    · by_contra differ
      have newK : k ≠ i := fun newK => differ (newJ.trans newK.symm)
      rw [newJ, file.written.name, others.slotName atK newK] at same
      exact file.name_ne volume atK (old atK newK useK) newK same.symm
    · by_cases newK : k = i
      · rw [newK, file.written.name, others.slotName atJ newJ] at same
        exact absurd same (file.name_ne volume atJ (old atJ newJ useJ) newJ)
      · rw [others.slotName atJ newJ, others.slotName atK newK] at same
        exact volume.distinct j k atJ atK (old atJ newJ useJ) (old atK newK useK) same
  · by_cases other : j = i
    · obtain ⟨ds, clusters, _⟩ := file.clusters_new noWrap volume
      rw [other]
      exact clusters.imp And.left fun chain => ⟨ds, chain⟩
    · obtain ⟨ds, clusters⟩ := volume.clusters_of inside (old inside other use)
      have now := (file.clusters_kept noWrap volume inside (old inside other use) other clusters).1
      exact now.imp And.left fun chain => ⟨ds, chain⟩
  · by_cases newJ : j = i
    · have newK : k ≠ i := fun newK => differ (newJ.trans newK.symm)
      subst newJ
      exact (file.new_apart noWrap volume atK (old atK newK useK) newK
        (Or.inr (chain atK newK (old atK newK useK) chainK)) (Or.inr chainJ)).symm
    · by_cases newK : k = i
      · subst newK
        exact file.new_apart noWrap volume atJ (old atJ newJ useJ) newJ
          (Or.inr (chain atJ newJ (old atJ newJ useJ) chainJ)) (Or.inr chainK)
      · exact volume.disjoint j k ds es atJ atK (old atJ newJ useJ) (old atK newK useK) differ
          (chain atJ newJ (old atJ newJ useJ) chainJ) (chain atK newK (old atK newK useK) chainK)

/-- The files are those from before, and the new one in place of the one of its name. -/
theorem hasFile_iff (file : StoredAs s s' raw buffer i first cs) (volume : FatVolume s.dev s.fat)
    (plain : FoundName raw) (raw' bytes : List UInt8) : s.fat.HasFile s'.dev.disk raw' bytes ↔
      if raw' = raw then bytes = buffer else s.fat.HasFile s.dev.disk raw' bytes := by
  have new := file.content_new noWrap volume
  have others := file.written.others
  obtain ⟨base, suffix, parts, rfl⟩ := plain.padded
  split
  · rename_i same
    subst same
    constructor
    · rintro ⟨j, inside, shown, name, content⟩
      by_cases other : j = i
      · subst other
        exact content.unique new
      · rw [others.slotName inside other] at name
        exact absurd name (file.name_ne volume inside ((others.visible inside other).mp shown).1 other)
    · rintro rfl
      exact ⟨i, file.inside, file.visible plain, file.written.name, new⟩
  · rename_i differ
    refine exists_congr fun j => and_congr_right fun inside => ?_
    by_cases other : j = i
    · subst other
      refine iff_of_false (fun ⟨_, name, _⟩ => differ (name.symm.trans file.written.name)) fun ⟨shown, name, _⟩ => ?_
      -- a replaced entry has the same name, and a new one was vacant
      cases file.target with
      | create vacant _ _ _ => exact vacant.elim shown.1.1 shown.1.2.1
      | replace _ same _ => exact differ (name.symm.trans same)
    · rw [others.visible inside other, others.slotName inside other]
      exact and_congr_right fun shown => and_congr_right fun _ =>
        file.content_kept noWrap volume inside shown.1 other

end StoredAs

end LearningOS
