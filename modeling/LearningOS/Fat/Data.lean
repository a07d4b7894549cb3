import LearningOS.Fat.Reading
import LearningOS.Fat.Table

namespace LearningOS
open ByteStore Links

variable {fat : FatFs} {dev : StorageDevice}

/-- The sectors of a cluster from `s` on, written from the buffer. -/
theorem storeCluster_eq {c s n : Nat} {buffer : List UInt8} (works : dev.Works) (sound : fat.Sound dev.sectors)
    (member : fat.IsCluster c) (inside : s + n ≤ fat.sectorsPerCluster) (some : buffer ≠ [] ∨ n = 0) :
    storeCluster fat c (List.range' s n) dev buffer =
      (dev.withDisk (paste dev.disk (fat.clusterBase c + 512 * s) (padSector (buffer.take (512 * n)))),
        Option.some (buffer.drop (512 * n))) := by
  induction n generalizing s dev buffer with
  | zero => simp [storeCluster, padSector]
  | succ n ih =>
    obtain ⟨address, onDisk⟩ := sound.lba_eq member (show s < fat.sectorsPerCluster by omega)
    have filled : buffer ≠ [] := by simpa using some
    rw [List.range'_succ]
    by_cases short : buffer.length < 512
    · simp only [storeCluster, sound.bytes, if_pos short, works.writeSector_eq onDisk,
        putSector_zeroed filled short.le, address]
      rw [List.take_of_length_le (by omega), List.drop_eq_nil_of_le (by omega)]
    · have front : buffer.take 512 ≠ [] := by simpa using filled
      have first : putSector dev.disk (u32 (fatClusterToLba fat c + s)) (paste (fun _ => 0) 0 (buffer.take 512)) =
          paste dev.disk (fat.clusterBase c + 512 * s) (padSector (buffer.take 512)) := by
        rw [putSector_zeroed front (List.length_take_le _ _), address]
      simp only [storeCluster, sound.bytes, if_neg short, works.writeSector_eq onDisk, first]
      by_cases done : buffer.drop 512 = []
      · have length := List.drop_eq_nil_iff.mp done
        rw [if_pos done, List.take_of_length_le length, List.take_of_length_le (by omega),
          List.drop_eq_nil_of_le (by omega)]
      · rw [if_neg done]
        have rest := ih (s := s + 1) (works.withDisk (paste dev.disk (fat.clusterBase c + 512 * s)
          (padSector (buffer.take 512)))) sound
          (by omega) (Or.inl done)
        rw [rest, List.drop_drop, StorageDevice.withDisk_withDisk, StorageDevice.withDisk_disk, Nat.mul_succ,
          ← Nat.add_assoc, paste_padSector_take rfl (Nat.not_lt.mp short), Nat.mul_succ, Nat.add_comm 512]

/-- Bytes written behind the root directory change no FAT entry. -/
theorem FatFs.Sound.entry_paste {sectors : Nat} (sound : fat.Sound sectors) {m : Bytes} {c d : Nat} {bs : List UInt8}
    (bound : c < fat.totalClusters + 2) : fat.entry (paste m (fat.clusterBase d) bs) c = fat.entry m c := by
  have before := sound.entry_before_data bound d
  exact word_congr fun x _ _ => paste_outside (by omega)

/-- A run of linked clusters is filled from the buffer. -/
theorem storeLoop_eq {first n fuel : Nat} {buffer : List UInt8} (works : dev.Works) (sound : fat.Sound dev.sectors)
    (two : 2 ≤ first) (inside : first + n ≤ fat.totalClusters)
    (path : Path (fat.link dev.disk) first (List.range' first n)) (some : buffer ≠ [])
    (fits : buffer.length ≤ n * fat.clusterBytes) (enough : n < fuel) :
    storeLoop fat fuel dev first buffer =
      .ok (dev.withDisk (paste dev.disk (fat.clusterBase first) (padSector buffer)), true) := by
  induction n generalizing first fuel dev buffer with
  | zero => exact absurd (List.length_pos_iff.mpr some) (by omega)
  | succ n ih =>
    obtain ⟨fuel, rfl⟩ : ∃ k, fuel = k + 1 := ⟨fuel - 1, by omega⟩
    have member : fat.IsCluster first := ⟨two, by omega⟩
    have clusters := sound.clusters
    have stored := storeCluster_eq works sound member (show 0 + fat.sectorsPerCluster ≤ _ by omega) (Or.inl some)
    rw [← List.range_eq_range'] at stored
    simp only [Nat.mul_zero, Nat.add_zero] at stored
    change storeCluster fat first (List.range fat.sectorsPerCluster) dev buffer =
      (dev.withDisk (paste dev.disk (fat.clusterBase first) (padSector (buffer.take fat.clusterBytes))),
        Option.some (buffer.drop fat.clusterBytes)) at stored
    rw [storeLoop, if_pos ⟨List.length_pos_iff.mpr some, two, by omega⟩, stored]
    have read (bs : List UInt8) : fatReadFatEntry fat (dev.withDisk (paste dev.disk (fat.clusterBase first) bs)) first =
        (dev.withDisk (paste dev.disk (fat.clusterBase first) bs), fat.entry dev.disk first) := by
      rw [fatReadFatEntry_eq (works.withDisk (paste dev.disk _ bs)) sound member.2, StorageDevice.withDisk_disk,
        sound.entry_paste member.2]
    simp only [read]
    obtain ⟨fuel, rfl⟩ : ∃ k, fuel = k + 1 := ⟨fuel - 1, by omega⟩
    by_cases done : buffer.drop fat.clusterBytes = []
    · have length := List.drop_eq_nil_iff.mp done
      rw [storeLoop, done, if_neg (by simp), List.take_of_length_le length]
    · have long : fat.clusterBytes < buffer.length := by
        by_contra short
        exact done (List.drop_eq_nil_of_le (by omega))
      have sectors : fat.clusterBytes % 512 = 0 := Nat.mul_mod_right 512 _
      rw [Nat.succ_mul] at fits
      obtain ⟨k, rfl⟩ : ∃ k, n = k + 1 := ⟨n - 1, by
        rcases n with _ | k
        · omega
        · rfl⟩
      obtain ⟨link, rest⟩ := path.tail
      rw [(FatFs.link_eq_some link).1]
      rw [ih (works.withDisk (paste dev.disk _ (padSector (buffer.take fat.clusterBytes)))) sound
        (by omega) (by omega) ?_ done (by rw [List.length_drop]; omega) (by omega), StorageDevice.withDisk_withDisk,
        StorageDevice.withDisk_disk, FatFs.Sound.clusterBase_succ fat two, paste_padSector sectors long.le]
      · refine rest.congr fun c atC => ?_
        obtain ⟨i, less, rfl⟩ := List.mem_range'.mp (show c ∈ List.range' (first + 1) (k + 1) from atC)
        simp only [FatFs.link, StorageDevice.withDisk_disk, sound.entry_paste (show first + 1 + 1 * i < _ by omega)]

/-- The links of a FAT16 volume. -/
theorem FatFs.Sound.fileChain {sectors first : Nat} {m : Bytes} {cs : List Nat} (sound : fat.Sound sectors)
    (chain : fat.Chain m first cs) : fat.FileChain m first cs := by
  refine ⟨chain.path.congr fun c _ => ?_, chain.inside⟩
  simp only [FatFs.next, FatFs.fatEntry, FatFs.endMark, if_pos sound.type]
  rfl

/-- Reading along a chain yields the bytes of its clusters in order. -/
theorem readLoop_eq {toRead first fuel : Nat} {cs : List Nat} {out : List UInt8} (works : dev.Works)
    (sound : fat.Sound dev.sectors) (chain : fat.Chain dev.disk first cs) (small : toRead + 512 ≤ 2 ^ 32)
    (enough : cs.length < fuel) :
    readLoop fat toRead fuel dev first out =
      .ok (dev, out ++ (cs.flatMap (fat.clusterData dev.disk)).take (toRead - out.length)) := by
  obtain ⟨dev', run, stays⟩ := readLoop_serves out sound.readable dev.serves (sound.fileChain chain) small enough
  rw [run, stays works,
    FatFs.placesRead_answered sound.readable (fun i lba less => works.reads.answers less i) chain.inside, List.map_take,
    FatFs.places_map]

end LearningOS
