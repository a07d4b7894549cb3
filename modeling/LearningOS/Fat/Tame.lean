import LearningOS.Fat.Table
import LearningOS.Run.Faults

namespace LearningOS
open ByteStore

/-- The bytes that belong to the clusters: their entries in the first FAT, and the
data. -/
def FatFs.ClusterByte (fat : FatFs) (x : Nat) : Prop :=
  (fat.tableBase + 4 ≤ x ∧ x < fat.tableBase + 2 * (fat.totalClusters + 2)) ∨ 512 * fat.firstDataSector ≤ x

/-- A set of clusters that no link leaves. -/
structure FatFs.Closed (fat : FatFs) (member : Nat → Prop) (m : Bytes) : Prop where
  inside : ∀ c, member c → fat.IsCluster c
  links : ∀ c d, member c → fat.link m c = some d → member d

/-- What the requests for the clusters of a closed set do: they change bytes of the
clusters only, and the set stays closed. -/
structure FatFs.Keeps (fat : FatFs) (member : Nat → Prop) (dev dev' : StorageDevice) : Prop where
  reads : dev'.Reads
  sectors : dev'.sectors = dev.sectors
  same : ∀ x, ¬ fat.ClusterByte x → dev'.disk x = dev.disk x
  closed : fat.Closed member dev'.disk

variable {fat : FatFs} {member : Nat → Prop} {dev dev' dev'' : StorageDevice} {m m' : Bytes}

namespace FatFs.Closed

theorem congr (closed : fat.Closed member m)
    (same : ∀ c, fat.IsCluster c → fat.entry m' c = fat.entry m c) : fat.Closed member m' := by
  refine ⟨closed.inside, fun c d atC link => closed.links c d atC ?_⟩
  simpa only [FatFs.link, same c (closed.inside c atC)] using link

/-- An entry may be set to a mark or to a link into the set. -/
theorem set (closed : fat.Closed member m) {c v : Nat} (word : v < 2 ^ 16)
    (link : 2 ≤ v → v < 0xFFF8 → member v) : fat.Closed member (setWord m fat.tableBase c v) := by
  refine ⟨closed.inside, fun e d atE target => ?_⟩
  by_cases same : e = c
  · obtain ⟨value, low, high⟩ := FatFs.link_eq_some target
    rw [same, FatFs.entry, word_setWord_same, Nat.mod_eq_of_lt word] at value
    rw [← value] at low high ⊢
    exact link low high
  · have other : fat.entry (setWord m fat.tableBase c v) e = fat.entry m e := word_setWord_other same
    simp only [FatFs.link, other] at target
    exact closed.links e d atE target

/-- The links of the clusters of a free run lead nowhere, so they may join the set. -/
theorem join (closed : fat.Closed member m) {first n : Nat} (free : fat.FreeRun m first n) :
    fat.Closed (fun c => member c ∨ (first ≤ c ∧ c < first + n)) m := by
  obtain ⟨two, upper, zero⟩ := free
  refine ⟨fun c atC => ?_, fun c d atC link => ?_⟩
  · rcases atC with old | ⟨lower, less⟩
    · exact closed.inside c old
    · exact ⟨by omega, by omega⟩
  · rcases atC with old | ⟨lower, less⟩
    · exact Or.inl (closed.links c d old link)
    · obtain ⟨value, low, _⟩ := FatFs.link_eq_some link
      have none := zero c lower less
      omega

end FatFs.Closed

namespace FatFs.Keeps

theorem sound (keeps : fat.Keeps member dev dev') (sound : fat.Sound dev.sectors) : fat.Sound dev'.sectors := by
  rw [keeps.sectors]
  exact sound

theorem trans {joined : Nat → Prop} (keeps : fat.Keeps member dev dev') (later : fat.Keeps joined dev' dev'') :
    fat.Keeps joined dev dev'' := by
  refine ⟨later.reads, later.sectors.trans keeps.sectors, fun x outside => ?_, later.closed⟩
  exact (later.same x outside).trans (keeps.same x outside)

theorem rests (keeps : fat.Keeps member dev dev') (later : dev'.Rests dev'') : fat.Keeps member dev dev'' := by
  refine ⟨later.reads, later.sectors.trans keeps.sectors, fun x outside => ?_, ?_⟩
  · rw [later.disk]
    exact keeps.same x outside
  · rw [later.disk]
    exact keeps.closed

end FatFs.Keeps

theorem FatFs.Closed.keeps (closed : fat.Closed member dev.disk) (rests : dev.Rests dev') :
    fat.Keeps member dev dev' := by
  refine ⟨rests.reads, rests.sectors, fun x _ => ?_, ?_⟩
  · rw [rests.disk]
  · rw [rests.disk]
    exact closed

section
variable (sound : fat.Sound dev.sectors) (reads : dev.Reads)
include sound reads

theorem fatReadFatEntry_reads {c : Nat} (bound : c < fat.totalClusters + 2) :
    fatReadFatEntry fat dev c = (dev.tick, fat.entry dev.disk c) := by
  have clusters := sound.clusters
  have read : fatReadFatEntry fat (dev.after 0 dev.disk) c = _ :=
    sound.table16.read_after reads.present reads.read (by omega)
  rw [← StorageDevice.after_tick, reads.answers (sound.tableSector_lt bound), sound.tableEntry_eq] at read
  exact read

theorem fatWriteFatEntry_keeps (closed : fat.Closed member dev.disk) {c v : Nat} (cluster : fat.IsCluster c)
    (word : v < 2 ^ 16) (link : 2 ≤ v → v < 0xFFF8 → member v) :
    ∃ dev' done, fatWriteFatEntry fat dev c v = (dev', done) ∧ fat.Keeps member dev dev' := by
  obtain ⟨sector, inside, address⟩ := sound.entry_sector cluster.2
  have clusters := sound.clusters
  have two := cluster.1
  have upper := cluster.2
  have offset : u32 (c * 2) = 2 * c := by rw [u32_of_lt (by omega), Nat.mul_comm]
  obtain ⟨dev', done, write, reads', sectors, disk⟩ := reads.tick.reads.writeSector_cases
    (fat.firstFatSector + 2 * c / 512)
    (store16 (sectorAt dev.disk (fat.firstFatSector + 2 * c / 512)) (2 * c % 512) v)
  have stored : putSector dev.disk (fat.firstFatSector + 2 * c / 512)
      (store16 (sectorAt dev.disk (fat.firstFatSector + 2 * c / 512)) (2 * c % 512) v) =
      setWord dev.disk fat.tableBase c v := by
    rw [putSector_store16 (by omega), putSector_sectorAt, address]
    rfl
  rw [reads.tick.disk, stored] at disk
  refine ⟨dev', done, ?_, reads', sectors, fun x outside => ?_, ?_⟩
  · simp only [fatWriteFatEntry, sound.type, ne_eq, not_true_eq_false, if_false, offset, sound.bytes, sector,
      reads.readSector_eq inside, write]
  · rw [disk]
    split
    · have apart : ¬ (fat.tableBase + 4 ≤ x ∧ x < fat.tableBase + 2 * (fat.totalClusters + 2)) :=
        fun within => outside (Or.inl within)
      exact setWord_outside (by omega)
    · rfl
  · rw [disk]
    split
    · exact closed.set word link
    · exact closed

/-- A sector of the data area holds no FAT entry. -/
theorem writeSector_data_keeps (closed : fat.Closed member dev.disk) {lba : Nat} (data : fat.firstDataSector ≤ lba)
    (buffer : Bytes) : ∃ dev' done, writeSector dev lba buffer = (dev', done) ∧ fat.Keeps member dev dev' := by
  obtain ⟨dev', done, write, reads', sectors, disk⟩ := reads.writeSector_cases lba buffer
  have same (x : Nat) (before : x < 512 * fat.firstDataSector) : dev'.disk x = dev.disk x := by
    rw [disk]
    split
    · exact putSector_outside (by omega)
    · rfl
  refine ⟨dev', done, write, reads', sectors, fun x outside => ?_, closed.congr fun c cluster => ?_⟩
  · exact same x (Nat.not_le.mp fun beyond => outside (Or.inr beyond))
  · have before := sound.entry_before_data cluster.2 2
    have base : fat.clusterBase 2 = 512 * fat.firstDataSector := by simp [FatFs.clusterBase]
    exact word_congr fun x _ _ => same x (by omega)

end

/-- Freeing a chain changes entries of the set only, whichever writes fail. -/
theorem freeChainLoop_keeps {fuel c : Nat} (sound : fat.Sound dev.sectors) (reads : dev.Reads)
    (closed : fat.Closed member dev.disk) (start : 2 ≤ c → c < 0xFFF8 → member c)
    (run : freeChainLoop fat fuel dev c = .ok dev') : fat.Keeps member dev dev' := by
  induction fuel generalizing dev c with
  | zero => simp [freeChainLoop] at run
  | succ fuel ih =>
    rw [freeChainLoop] at run
    by_cases more : c ≥ 2 ∧ c < 0xFFF8
    · have atC := start more.1 more.2
      have cluster := closed.inside c atC
      have ticked := closed.keeps reads.tick
      obtain ⟨dev₁, done, write, step⟩ := fatWriteFatEntry_keeps (ticked.sound sound) ticked.reads ticked.closed
        cluster (show 0 < 2 ^ 16 by decide) (by omega)
      simp only [if_pos more, fatReadFatEntry_reads sound reads cluster.2, write] at run
      have first := ticked.trans step
      refine first.trans (ih (first.sound sound) first.reads first.closed (fun low high => ?_) run)
      exact closed.links c _ atC (if_pos ⟨low, high⟩)
    · rw [if_neg more] at run
      cases Except.ok.inj run
      exact closed.keeps reads.rests

/-- Linking a run sets links inside the run and an end mark. -/
theorem linkRun_keeps {first needed : Nat} {is : List Nat} (sound : fat.Sound dev.sectors) (reads : dev.Reads)
    (closed : fat.Closed member dev.disk) (run : ∀ i, i < needed → member (first + i))
    (bound : ∀ i ∈ is, i < needed) :
    ∃ dev' done, linkRun fat first needed is dev = (dev', done) ∧ fat.Keeps member dev dev' := by
  induction is generalizing dev with
  | nil => exact ⟨dev, true, rfl, closed.keeps reads.rests⟩
  | cons i rest ih =>
    have clusters := sound.clusters
    have less := bound i List.mem_cons_self
    have cluster := closed.inside _ (run i less)
    have upper := cluster.2
    have cur : u32 (first + i) = first + i := u32_of_lt (by omega)
    have next : u32 (first + i + 1) = first + i + 1 := u32_of_lt (by omega)
    have value : (if i + 1 = needed then 0xFFFF else first + i + 1) < 2 ^ 16 := by
      split
      · decide
      · omega
    obtain ⟨dev₁, done, write, step⟩ := fatWriteFatEntry_keeps sound reads closed cluster value fun low high => by
      split at high
      · omega
      · rename_i more
        rw [if_neg more]
        exact run (i + 1) (by omega)
    simp only [linkRun, cur, next, write]
    cases done with
    | false => exact ⟨dev₁, false, rfl, step⟩
    | true =>
      obtain ⟨dev', done, loop, later⟩ := ih (step.sound sound) step.reads step.closed fun j atJ =>
        bound j (List.mem_cons_of_mem i atJ)
      exact ⟨dev', done, loop, step.trans later⟩

/-- The sectors of a cluster lie in the data area. -/
theorem FatFs.Sound.data_le_lba {sectors c s : Nat} (sound : fat.Sound sectors) (cluster : fat.IsCluster c)
    (inside : s < fat.sectorsPerCluster) : fat.firstDataSector ≤ u32 (fatClusterToLba fat c + s) := by
  have address := (sound.lba_eq cluster inside).1
  have base : 512 * fat.firstDataSector ≤ fat.clusterBase c := Nat.le_add_right _ _
  omega

theorem storeCluster_keeps {c : Nat} {ss : List Nat} (sound : fat.Sound dev.sectors) (reads : dev.Reads)
    (closed : fat.Closed member dev.disk) (cluster : fat.IsCluster c) (inside : ∀ s ∈ ss, s < fat.sectorsPerCluster)
    (buffer : List UInt8) :
    ∃ dev' left, storeCluster fat c ss dev buffer = (dev', left) ∧ fat.Keeps member dev dev' := by
  induction ss generalizing dev buffer with
  | nil => exact ⟨dev, some buffer, rfl, closed.keeps reads.rests⟩
  | cons s rest ih =>
    have data := sound.data_le_lba cluster (inside s List.mem_cons_self)
    rw [storeCluster]
    split
    · obtain ⟨dev', done, write, keeps⟩ := writeSector_data_keeps sound reads closed data (paste (fun _ => 0) 0 buffer)
      simp only [write]
      cases done with
      | false => exact ⟨dev', none, rfl, keeps⟩
      | true => exact ⟨dev', some [], rfl, keeps⟩
    · obtain ⟨dev₁, done, write, keeps⟩ := writeSector_data_keeps sound reads closed data
        (paste (fun _ => 0) 0 (buffer.take 512))
      simp only [write]
      cases done with
      | false => exact ⟨dev₁, none, rfl, keeps⟩
      | true =>
        by_cases last : buffer.drop fat.bytesPerSector = []
        · simp only [if_pos last]
          exact ⟨dev₁, some [], rfl, keeps⟩
        · simp only [if_neg last]
          obtain ⟨dev', left, loop, later⟩ := ih (keeps.sound sound) keeps.reads keeps.closed
            (fun t atT => inside t (List.mem_cons_of_mem s atT)) (buffer.drop fat.bytesPerSector)
          exact ⟨dev', left, loop, keeps.trans later⟩

/-- Filling clusters from one of the set on stays inside the set. -/
theorem storeLoop_keeps {fuel c : Nat} {buffer : List UInt8} {stored : Bool} (sound : fat.Sound dev.sectors)
    (reads : dev.Reads) (closed : fat.Closed member dev.disk) (start : 2 ≤ c → c < 0xFFF8 → member c)
    (run : storeLoop fat fuel dev c buffer = .ok (dev', stored)) : fat.Keeps member dev dev' := by
  induction fuel generalizing dev c buffer with
  | zero => simp [storeLoop] at run
  | succ fuel ih =>
    rw [storeLoop] at run
    by_cases more : buffer.length > 0 ∧ c ≥ 2 ∧ c < 0xFFF8
    · have atC := start more.2.1 more.2.2
      have cluster := closed.inside c atC
      obtain ⟨dev₁, left, stores, step⟩ := storeCluster_keeps sound reads closed cluster
        (fun s atS => List.mem_range.mp atS) buffer
      simp only [if_pos more, stores] at run
      cases left with
      | none =>
        cases Except.ok.inj run
        exact step
      | some left =>
        simp only [fatReadFatEntry_reads (step.sound sound) step.reads cluster.2] at run
        have ticked := step.rests step.reads.tick
        refine ticked.trans (ih (ticked.sound sound) ticked.reads ticked.closed (fun low high => ?_) run)
        exact step.closed.links c _ atC (if_pos ⟨low, high⟩)
    · rw [if_neg more] at run
      cases Except.ok.inj run
      exact closed.keeps reads.rests

/-- Placing the bytes of a file touches the set and a free run that joins it. -/
theorem storeData_keeps {buffer : List UInt8} {result : Option Nat} (sound : fat.Sound dev.sectors)
    (reads : dev.Reads) (closed : fat.Closed member dev.disk)
    (run : storeData fat dev buffer = .ok (dev', result)) :
    ∃ joined : Nat → Prop, (∀ c, member c → joined c) ∧ fat.Keeps joined dev dev' ∧
      ∀ first, result = some first → first = 0 ∨ joined first := by
  unfold storeData at run
  split at run
  · simp only at run
    generalize u32 (buffer.length + u32 (fat.bytesPerSector * fat.sectorsPerCluster) - 1) /
      u32 (fat.bytesPerSector * fat.sectorsPerCluster) = needed at run
    obtain ⟨later, first, search, found⟩ := fatFindFreeRun_reads sound reads needed
    have rests := reads.after later
    simp only [search] at run
    by_cases zero : first = 0
    · rw [if_pos zero] at run
      cases Except.ok.inj run
      exact ⟨member, fun c atC => atC, closed.keeps rests, by simp⟩
    · rw [if_neg zero] at run
      have free : fat.FreeRun dev.disk first (max needed 1) := (found.resolve_left fun none => zero none.1).1
      have keeps := (closed.join free).keeps rests
      have atFirst : member first ∨ (first ≤ first ∧ first < first + max needed 1) := Or.inr ⟨le_rfl, by omega⟩
      refine ⟨fun c => member c ∨ (first ≤ c ∧ c < first + max needed 1), fun c atC => Or.inl atC, ?_⟩
      have joins (i : Nat) (less : i < needed) :
          member (first + i) ∨ (first ≤ first + i ∧ first + i < first + max needed 1) := Or.inr ⟨by omega, by omega⟩
      obtain ⟨dev₂, done, links, linked⟩ := linkRun_keeps (keeps.sound sound) keeps.reads keeps.closed joins
        (fun i atI => List.mem_range.mp atI)
      simp only [links] at run
      cases done with
      | false =>
        cases Except.ok.inj run
        exact ⟨keeps.trans linked, by simp⟩
      | true =>
        have both := keeps.trans linked
        obtain ⟨filled, filling, run⟩ := Faults.bind_ok run
        have step := storeLoop_keeps (both.sound sound) both.reads both.closed (fun _ _ => atFirst) filling
        cases Except.ok.inj run
        refine ⟨both.trans step, fun f same => ?_⟩
        split at same
        · cases Option.some.inj same
          exact Or.inr atFirst
        · simp at same
  · cases Except.ok.inj run
    exact ⟨member, fun c atC => atC, closed.keeps reads.rests, fun f same => Or.inl (Option.some.inj same).symm⟩

end LearningOS
