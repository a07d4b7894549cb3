import LearningOS.Paging.Model

namespace LearningOS
open ByteStore

/-- The two entries the processor meets on its walk for a virtual address. -/
structure PageWalk where
  pde : Nat
  pte : Nat
deriving DecidableEq, Repr

/-- The walk of the processor, if both entries are present. -/
def pageWalk (l : KernelLayout) (t : PageTables) (ram : Nat → Nat) (v : Nat) : Option PageWalk :=
  let pde := physWord l t ram (l.directory + v / 2 ^ 22 % 1024 * 4)
  if pde % 2 = 0 then none
  else
    let pte := physWord l t ram (pde / 4096 * 4096 + v / 4096 % 1024 * 4)
    if pte % 2 = 0 then none else some ⟨pde, pte⟩

def PageWalk.phys (w : PageWalk) (v : Nat) : Nat := w.pte / 4096 * 4096 + v % 4096

/-- Bit 1 of both entries. -/
def PageWalk.Writable (w : PageWalk) : Prop := w.pde.testBit 1 = true ∧ w.pte.testBit 1 = true

/-- Bit 2 of both entries. -/
def PageWalk.User (w : PageWalk) : Prop := w.pde.testBit 2 = true ∧ w.pte.testBit 2 = true

/-- Bit 2 of neither entry. -/
def PageWalk.Supervisor (w : PageWalk) : Prop := w.pde.testBit 2 = false ∧ w.pte.testBit 2 = false

/-- After the identity loop has visited the listed tables. -/
theorem foldl_mapIdentityTable (l : KernelLayout) {ts : List Nat} (inRange : ∀ table ∈ ts, table < 8) (t : PageTables)
    {table : Nat} (member : table ∈ ts) :
    (ts.foldl (mapIdentityTable l) t).directory table = l.low + table * 4096 + 7 ∧
      ∀ i, i < 1024 → (ts.foldl (mapIdentityTable l) t).low table i = (table * 1024 + i) * 4096 + 7 := by
  have aligned := l.lowAligned
  refine foldl_visited (P := fun table (t : PageTables) => t.directory table = l.low + table * 4096 + 7 ∧
    ∀ i, i < 1024 → t.low table i = (table * 1024 + i) * 4096 + 7) (fun t table member => ?_)
    (fun t table last differ kept => ?_) t member
  · unfold mapIdentityTable
    refine ⟨?_, fun i inTable => ?_⟩
    · simp only [Function.update_self]
      exact or_flags (by omega) (by decide)
    · simp only [Function.update_self]
      exact fillTable_apply _ (by decide) inTable (inRange _ member)
  · simp only [mapIdentityTable, Function.update_of_ne differ]
    exact kept

/-- The identity loop writes no other directory entry. -/
theorem foldl_mapIdentityTable_other (l : KernelLayout) {ts : List Nat} (t : PageTables) {i : Nat} (other : i ∉ ts) :
    (ts.foldl (mapIdentityTable l) t).directory i = t.directory i := by
  induction ts generalizing t with
  | nil => rfl
  | cons first ts ih =>
    obtain ⟨differ, rest⟩ := List.ne_and_not_mem_of_not_mem_cons other
    rw [List.foldl_cons, ih _ rest]
    exact Function.update_of_ne differ _ _

/-- The high loop leaves the low tables and all directory entries but its own. -/
theorem foldl_mapHighTable_other (l : KernelLayout) {ts : List Nat} (t : PageTables) :
    (ts.foldl (mapHighTable l) t).low = t.low ∧
      ∀ i, (∀ table ∈ ts, i ≠ 768 + table) → (ts.foldl (mapHighTable l) t).directory i = t.directory i := by
  induction ts generalizing t with
  | nil => exact ⟨rfl, fun _ _ => rfl⟩
  | cons first ts ih =>
    obtain ⟨low, directory⟩ := ih (mapHighTable l t first)
    refine ⟨low, fun i other => ?_⟩
    rw [List.foldl_cons, directory i fun table member => other table (List.mem_cons_of_mem _ member)]
    exact Function.update_of_ne (other first List.mem_cons_self) _ _

theorem pagingInit_low (l : KernelLayout) {table i : Nat} (inRange : table < 8) (inTable : i < 1024) :
    (pagingInit l).low table i = (table * 1024 + i) * 4096 + 7 := by
  unfold pagingInit mapHighKernel
  rw [(foldl_mapHighTable_other l _).1]
  exact (foldl_mapIdentityTable l (fun _ => mem_tableIndices.mp) _ (mem_tableIndices.mpr inRange)).2 i inTable

theorem pagingInit_directory_low (l : KernelLayout) {table : Nat} (inRange : table < 8) :
    (pagingInit l).directory table = l.low + table * 4096 + 7 := by
  unfold pagingInit mapHighKernel
  rw [(foldl_mapHighTable_other l _).2 table fun high _ => by omega]
  exact (foldl_mapIdentityTable l (fun _ => mem_tableIndices.mp) _ (mem_tableIndices.mpr inRange)).1

theorem pagingInit_directory_other (l : KernelLayout) {i : Nat} (low : 8 ≤ i) (high : i < 768 ∨ 776 ≤ i) :
    (pagingInit l).directory i = 0 := by
  unfold pagingInit mapHighKernel mapIdentityRange
  rw [(foldl_mapHighTable_other l _).2 i fun table member => by
      have bound := mem_tableIndices.mp member
      omega,
    foldl_mapIdentityTable_other l _ fun member => by
      have bound := mem_tableIndices.mp member
      omega]

/-- A word of the directory as the processor reads it. -/
theorem physWord_directory (l : KernelLayout) (t : PageTables) (ram : Nat → Nat) {i : Nat} (inside : i < 1024) :
    physWord l t ram (l.directory + i * 4) = t.directory i := by
  rw [physWord, if_pos (by omega), Nat.add_sub_cancel_left, Nat.mul_div_cancel i (by decide)]

theorem physWord_low (l : KernelLayout) (t : PageTables) (ram : Nat → Nat) {table i : Nat} (inRange : table < 8)
    (inside : i < 1024) : physWord l t ram (l.low + table * 4096 + i * 4) = t.low table i := by
  have apart := l.directoryLow
  have row : (l.low + table * 4096 + i * 4 - l.low) / 4096 = table := by omega
  have column : (l.low + table * 4096 + i * 4 - l.low) % 4096 / 4 = i := by omega
  rw [physWord, if_neg (by omega), if_pos (by omega), row, column]

theorem physWord_high (l : KernelLayout) (t : PageTables) (ram : Nat → Nat) {table i : Nat} (inRange : table < 8)
    (inside : i < 1024) : physWord l t ram (l.high + table * 4096 + i * 4) = t.high table i := by
  have apart := l.directoryHigh
  have apartLow := l.lowHigh
  have row : (l.high + table * 4096 + i * 4 - l.high) / 4096 = table := by omega
  have column : (l.high + table * 4096 + i * 4 - l.high) % 4096 / 4 = i := by omega
  rw [physWord, if_neg (by omega), if_neg (by omega), if_pos (by omega), row, column]

/-- The walk through an entry for a table and an entry of it. -/
theorem pageWalk_of_entries {l : KernelLayout} {t : PageTables} {ram : Nat → Nat} {v table flags pte : Nat}
    (directory : t.directory (v / 2 ^ 22 % 1024) = table + flags) (aligned : table % 4096 = 0) (small : flags < 4096)
    (odd : flags % 2 = 1) (entry : physWord l t ram (table + v / 4096 % 1024 * 4) = pte) (present : pte % 2 = 1) :
    pageWalk l t ram v = some ⟨table + flags, pte⟩ := by
  unfold pageWalk
  simp only
  rw [physWord_directory l t ram (Nat.mod_lt _ (by decide)), directory, page_of_entry aligned small, entry,
    if_neg (by omega), if_neg (by omega)]

theorem pageWalk_low (l : KernelLayout) (ram : Nat → Nat) {v : Nat} (inRange : v < 0x2000000) :
    pageWalk l (pagingInit l) ram v = some ⟨l.low + v / 2 ^ 22 * 4096 + 7, v / 4096 * 4096 + 7⟩ := by
  have aligned := l.lowAligned
  have index : v / 2 ^ 22 % 1024 = v / 2 ^ 22 := by omega
  have page : v / 2 ^ 22 * 1024 + v / 4096 % 1024 = v / 4096 := by omega
  have directory := pagingInit_directory_low l (show v / 2 ^ 22 < 8 by omega)
  have entry := physWord_low l (pagingInit l) ram (show v / 2 ^ 22 < 8 by omega) (Nat.mod_lt (v / 4096) (by decide))
  rw [pagingInit_low l (by omega) (Nat.mod_lt _ (by decide)), page] at entry
  exact pageWalk_of_entries (by rw [index, directory]) (by omega) (by decide) (by decide) entry (by omega)

theorem pageWalk_high (l : KernelLayout) (ram : Nat → Nat) {w : Nat} (inRange : w < 0x2000000) :
    pageWalk l (pagingInit l) ram (0xC0000000 + w) =
      some ⟨l.high + w / 2 ^ 22 * 4096 + 3, w / 4096 * 4096 + 3⟩ := by
  have aligned := l.highAligned
  have index : (0xC0000000 + w) / 2 ^ 22 % 1024 = 768 + w / 2 ^ 22 := by omega
  have column : (0xC0000000 + w) / 4096 % 1024 = w / 4096 % 1024 := by omega
  have page : w / 2 ^ 22 * 1024 + w / 4096 % 1024 = w / 4096 := by omega
  have directory := pagingInit_directory_high l (show w / 2 ^ 22 < 8 by omega)
  have entry := physWord_high l (pagingInit l) ram (show w / 2 ^ 22 < 8 by omega) (Nat.mod_lt (w / 4096) (by decide))
  rw [pagingInit_high l (by omega) (Nat.mod_lt _ (by decide)), page, ← column] at entry
  exact pageWalk_of_entries (by rw [index, directory]) (by omega) (by decide) (by decide) entry (by omega)

theorem pageWalk_other (l : KernelLayout) (ram : Nat → Nat) {v : Nat} (small : v < 2 ^ 32) (notLow : 0x2000000 ≤ v)
    (notHigh : v < 0xC0000000 ∨ 0xC2000000 ≤ v) : pageWalk l (pagingInit l) ram v = none := by
  have index : v / 2 ^ 22 % 1024 = v / 2 ^ 22 := by omega
  unfold pageWalk
  simp only
  rw [physWord_directory l _ ram (Nat.mod_lt _ (by decide)), index,
    pagingInit_directory_other l (by omega) (by omega), if_pos (by decide)]

/-- The flags of an entry are the low bits of its word. -/
theorem testBit_entry {page flags i : Nat} (aligned : page % 4096 = 0) (low : i < 12) :
    (page + flags).testBit i = flags.testBit i := by
  have same : (page + flags) % 2 ^ 12 = flags % 2 ^ 12 := by omega
  have whole := Nat.testBit_mod_two_pow (page + flags) 12 i
  have part := Nat.testBit_mod_two_pow flags 12 i
  rw [same, part] at whole
  simpa only [low, decide_true, Bool.true_and] using whole.symm

/-- With the tables of `paging_init`, the first 32 MiB are mapped to themselves for
everyone, the 32 MiB from 0xC0000000 on to the same memory for the kernel, and nothing
else is mapped. -/
theorem paging_init_translates (l : KernelLayout) (ram : Nat → Nat) (v : BitVec 32) :
    (v.toNat < 0x2000000 →
      ∃ w, pageWalk l (pagingInit l) ram v.toNat = some w ∧ w.phys v.toNat = v.toNat ∧ w.Writable ∧ w.User) ∧
    (0xC0000000 ≤ v.toNat → v.toNat < 0xC2000000 →
      ∃ w, pageWalk l (pagingInit l) ram v.toNat = some w ∧ w.phys v.toNat = v.toNat - 0xC0000000 ∧ w.Writable ∧
        w.Supervisor) ∧
    (0x2000000 ≤ v.toNat → v.toNat < 0xC0000000 ∨ 0xC2000000 ≤ v.toNat →
      pageWalk l (pagingInit l) ram v.toNat = none) := by
  have lowAligned := l.lowAligned
  have highAligned := l.highAligned
  refine ⟨fun inRange => ?_, fun lower upper => ?_, fun notLow notHigh => pageWalk_other l ram v.isLt notLow notHigh⟩
  · have directory : (l.low + v.toNat / 2 ^ 22 * 4096) % 4096 = 0 := by omega
    have page : v.toNat / 4096 * 4096 % 4096 = 0 := Nat.mul_mod_left _ _
    refine ⟨_, pageWalk_low l ram inRange, ?_, ⟨?_, ?_⟩, ⟨?_, ?_⟩⟩
    · simp only [PageWalk.phys]
      omega
    · exact testBit_entry directory (by decide)
    · exact testBit_entry page (by decide)
    · exact testBit_entry directory (by decide)
    · exact testBit_entry page (by decide)
  · obtain ⟨w, shifted⟩ := Nat.exists_eq_add_of_le lower
    have inRange : w < 0x2000000 := by omega
    have directory : (l.high + w / 2 ^ 22 * 4096) % 4096 = 0 := by omega
    have page : w / 4096 * 4096 % 4096 = 0 := Nat.mul_mod_left _ _
    rw [shifted]
    refine ⟨_, pageWalk_high l ram inRange, ?_, ⟨?_, ?_⟩, ⟨?_, ?_⟩⟩
    · simp only [PageWalk.phys]
      omega
    · exact testBit_entry directory (by decide)
    · exact testBit_entry page (by decide)
    · exact testBit_entry directory (by decide)
    · exact testBit_entry page (by decide)

end LearningOS
