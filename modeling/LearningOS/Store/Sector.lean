import LearningOS.Store.Copy

namespace ByteStore

/-- A 512-byte buffer filled from a sector. -/
def sectorAt (m : Bytes) (lba : Nat) : Bytes := fun i => if i < 512 then m (512 * lba + i) else 0

/-- The disk after a sector was written from a buffer. -/
def putSector (m : Bytes) (lba : Nat) (buffer : Bytes) : Bytes := fun x =>
  if 512 * lba ≤ x ∧ x < 512 * lba + 512 then buffer (x - 512 * lba) else m x

theorem sectorAt_apply {m : Bytes} {lba i : Nat} (inside : i < 512) : sectorAt m lba i = m (512 * lba + i) :=
  if_pos inside

theorem sectorAt_congr {m m' : Bytes} {lba : Nat} (same : ∀ x, 512 * lba ≤ x → x < 512 * lba + 512 → m' x = m x) :
    sectorAt m' lba = sectorAt m lba := by
  funext i
  by_cases inside : i < 512
  · simp only [sectorAt_apply inside, same (512 * lba + i) (by omega) (by omega)]
  · simp only [sectorAt, if_neg inside]

theorem load16_sectorAt {m : Bytes} {lba i : Nat} (inside : i + 1 < 512) :
    load16 (sectorAt m lba) i = load16 m (512 * lba + i) := by
  simp (disch := omega) only [load16, sectorAt_apply, Nat.add_assoc]

theorem load32_sectorAt {m : Bytes} {lba i : Nat} (inside : i + 3 < 512) :
    load32 (sectorAt m lba) i = load32 m (512 * lba + i) := by
  simp (disch := omega) only [load32, load16_sectorAt, Nat.add_assoc]

theorem window_sectorAt {m : Bytes} {lba i n : Nat} (inside : i + n ≤ 512) :
    window (sectorAt m lba) i n = window m (512 * lba + i) n := by
  refine List.map_congr_left fun j member => ?_
  have less := List.mem_range.mp member
  rw [sectorAt_apply (by omega), Nat.add_assoc]

/-- A word that is stored into a sector. -/
theorem sectorAt_store16 {m : Bytes} {lba i : Nat} (inside : i + 1 < 512) (v : Nat) :
    store16 (sectorAt m lba) i v = sectorAt (store16 m (512 * lba + i) v) lba := by
  funext x
  by_cases within : x = i ∨ x = i + 1
  · rw [sectorAt_apply (by omega)]
    simp only [store16, store, Nat.add_assoc, Nat.add_left_cancel_iff]
    split_ifs
    · rfl
    · rfl
    · omega
  · rw [store16_outside (by omega)]
    unfold sectorAt
    rw [store16_outside (by omega)]

/-- Bytes of some sectors are those of the first and of the others. -/
theorem window_sectors (m : Bytes) (a left n : Nat) : window m a (min left (512 * (n + 1))) =
    window m a (min left 512) ++ window m (a + 512) (min (left - 512) (512 * n)) := by
  by_cases last : left ≤ 512
  · rw [Nat.min_eq_left last, Nat.min_eq_left (show left ≤ 512 * (n + 1) by omega), Nat.sub_eq_zero_of_le last,
      Nat.zero_min]
    simp [window]
  · have total : min left (512 * (n + 1)) = 512 + min (left - 512) (512 * n) := by omega
    rw [total, window_add, Nat.min_eq_right (show 512 ≤ left by omega)]

theorem putSector_apply {m buffer : Bytes} {lba i : Nat} (inside : i < 512) :
    putSector m lba buffer (512 * lba + i) = buffer i := by
  unfold putSector
  rw [if_pos (by omega), Nat.add_sub_cancel_left]

theorem putSector_outside {m buffer : Bytes} {lba x : Nat} (outside : x < 512 * lba ∨ 512 * lba + 512 ≤ x) :
    putSector m lba buffer x = m x := if_neg (by omega)

@[simp] theorem putSector_sectorAt (m : Bytes) (lba : Nat) : putSector m lba (sectorAt m lba) = m := by
  funext x
  unfold putSector
  split
  · rename_i within
    rw [sectorAt_apply (by omega), Nat.add_sub_cancel' within.1]
  · rfl

/-- A byte changed in the buffer is changed on the disk. -/
theorem putSector_store {m buffer : Bytes} {lba i : Nat} (inside : i < 512) (b : UInt8) :
    putSector m lba (store buffer i b) = store (putSector m lba buffer) (512 * lba + i) b := by
  funext x
  by_cases same : x = 512 * lba + i
  · subst same
    rw [putSector_apply inside, store_same, store_same]
  · rw [store_of_ne same]
    unfold putSector
    split
    · exact store_of_ne (by omega)
    · rfl

theorem putSector_store16 {m buffer : Bytes} {lba i : Nat} (inside : i + 1 < 512) (v : Nat) :
    putSector m lba (store16 buffer i v) = store16 (putSector m lba buffer) (512 * lba + i) v := by
  simp (disch := omega) only [store16, putSector_store, Nat.add_assoc]

theorem putSector_store32 {m buffer : Bytes} {lba i : Nat} (inside : i + 3 < 512) (v : Nat) :
    putSector m lba (store32 buffer i v) = store32 (putSector m lba buffer) (512 * lba + i) v := by
  simp (disch := omega) only [store32, putSector_store16, Nat.add_assoc]

theorem putSector_paste {m buffer : Bytes} {lba i : Nat} {bs : List UInt8} (inside : i + bs.length ≤ 512) :
    putSector m lba (paste buffer i bs) = paste (putSector m lba buffer) (512 * lba + i) bs := by
  funext x
  by_cases within : 512 * lba + i ≤ x ∧ x < 512 * lba + i + bs.length
  · obtain ⟨k, rfl⟩ := Nat.exists_eq_add_of_le within.1
    have less : k < bs.length := by omega
    rw [Nat.add_assoc, putSector_apply (by omega), ← Nat.add_assoc, paste_inside (List.getElem?_eq_getElem less),
      paste_inside (List.getElem?_eq_getElem less)]
  · rw [paste_outside (by omega)]
    unfold putSector
    split
    · exact paste_outside (by omega)
    · rfl

/-- Bytes filled up with zeros to whole sectors. -/
def padSector (bs : List UInt8) : List UInt8 := bs ++ List.replicate ((512 - bs.length % 512) % 512) 0

theorem padSector_whole {bs : List UInt8} (whole : bs.length % 512 = 0) : padSector bs = bs := by
  simp [padSector, whole]

theorem padSector_append {bs more : List UInt8} (whole : bs.length % 512 = 0) :
    padSector (bs ++ more) = bs ++ padSector more := by
  simp only [padSector, List.length_append, Nat.add_mod, whole, Nat.zero_add, Nat.mod_mod, List.append_assoc]

theorem padSector_length (bs : List UInt8) :
    (padSector bs).length = bs.length + (512 - bs.length % 512) % 512 := by
  simp [padSector]

/-- Whole sectors and the bytes that follow them are one write. -/
theorem paste_padSector {m : Bytes} {a k : Nat} {bs : List UInt8} (whole : k % 512 = 0) (long : k ≤ bs.length) :
    paste (paste m a (padSector (bs.take k))) (a + k) (padSector (bs.drop k)) = paste m a (padSector bs) := by
  have length : (bs.take k).length = k := by
    rw [List.length_take]
    omega
  have joined := paste_append m a (bs.take k) (padSector (bs.drop k))
  rw [length, ← padSector_append (by omega), List.take_append_drop] at joined
  rw [padSector_whole (by omega), joined]

theorem paste_padSector_take {m : Bytes} {a k n : Nat} {bs : List UInt8} (whole : k % 512 = 0) (long : k ≤ bs.length) :
    paste (paste m a (padSector (bs.take k))) (a + k) (padSector ((bs.drop k).take n)) =
      paste m a (padSector (bs.take (k + n))) := by
  have cut : k ≤ (bs.take (k + n)).length := by
    rw [List.length_take]
    omega
  have joined := paste_padSector (m := m) (a := a) whole cut
  rwa [List.take_take, Nat.min_eq_left (Nat.le_add_right k n), List.drop_take, Nat.add_sub_cancel_left] at joined

/-- A sector written from a buffer of zeros that was filled with some bytes. -/
theorem putSector_zeroed {m : Bytes} {lba : Nat} {bs : List UInt8} (some : bs ≠ []) (fits : bs.length ≤ 512) :
    putSector m lba (paste (fun _ => 0) 0 bs) = paste m (512 * lba) (padSector bs) := by
  have positive := List.length_pos_iff.mpr some
  have length : (padSector bs).length = 512 := by
    rw [padSector_length]
    omega
  funext x
  by_cases within : 512 * lba ≤ x ∧ x < 512 * lba + 512
  · obtain ⟨k, rfl⟩ := Nat.exists_eq_add_of_le within.1
    have less : k < 512 := by omega
    rw [putSector_apply less, paste_inside (List.getElem?_eq_getElem (by omega))]
    by_cases inside : k < bs.length
    · have value := paste_inside (m := fun _ => 0) (a := 0) (List.getElem?_eq_getElem inside)
      rw [Nat.zero_add] at value
      simp only [value, padSector, List.getElem_append_left inside]
    · rw [paste_outside (Or.inr (by omega))]
      simp only [padSector, List.getElem_append_right (Nat.not_lt.mp inside), List.getElem_replicate]
  · rw [putSector_outside (by omega), paste_outside (by omega)]

end ByteStore
