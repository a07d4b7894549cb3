import LearningOS.Store.Bytes
import Mathlib.Logic.Function.Basic
import Mathlib.Data.List.Induction

namespace LearningOS
open ByteStore

/-- Where the linker puts the end of the kernel image and the static table
arrays of `paging.c`, which it page-aligns and keeps apart. Virtual and physical
addresses of the image agree. -/
structure KernelLayout where
  kernelEnd : Nat
  directory : Nat
  low : Nat
  high : Nat
  imageStart : 0x100000 ≤ kernelEnd
  imageEnd : kernelEnd ≤ 0xFFFFF000
  directoryAligned : directory % 4096 = 0
  lowAligned : low % 4096 = 0
  highAligned : high % 4096 = 0
  directoryInside : directory + 0x1000 ≤ kernelEnd
  lowInside : low + 0x8000 ≤ kernelEnd
  highInside : high + 0x8000 ≤ kernelEnd
  directoryLow : directory + 0x1000 ≤ low ∨ low + 0x8000 ≤ directory
  directoryHigh : directory + 0x1000 ≤ high ∨ high + 0x8000 ≤ directory
  lowHigh : low + 0x8000 ≤ high ∨ high + 0x8000 ≤ low

/-- `page_directory`, `page_tables_low` and `page_tables_high`. -/
structure PageTables where
  directory : Nat → Nat
  low : Nat → Nat → Nat
  high : Nat → Nat → Nat

/-- The inner loop of both mapping functions. -/
def fillTable (flags table : Nat) (row : Nat → Nat) : Nat → Nat :=
  (List.range 1024).foldl
    (fun row i => Function.update row i (u32 ((table * 1024 + i) * 4096) ||| flags)) row

/-- The table indices a mapping loop visits before its `break`. -/
def tableIndices (base count : Nat) : List Nat := ((List.range count).map (base + ·)).takeWhile (· < 8)

/-- One pass of the loop of `map_identity_range`. -/
def mapIdentityTable (l : KernelLayout) (t : PageTables) (table : Nat) : PageTables :=
  { t with
    low := Function.update t.low table (fillTable (1 ||| 2 ||| 4) table (t.low table))
    directory := Function.update t.directory table ((l.low + table * 4096) ||| (1 ||| 2 ||| 4)) }

def mapIdentityRange (l : KernelLayout) (t : PageTables) (startMb countMb : Nat) : PageTables :=
  (tableIndices startMb countMb).foldl (mapIdentityTable l) t

/-- One pass of the loop of `map_high_kernel`. -/
def mapHighTable (l : KernelLayout) (t : PageTables) (table : Nat) : PageTables :=
  { t with
    high := Function.update t.high table (fillTable (1 ||| 2) table (t.high table))
    directory := Function.update t.directory (768 + table) ((l.high + table * 4096) ||| (1 ||| 2)) }

def mapHighKernel (l : KernelLayout) (t : PageTables) (baseMb countMb : Nat) : PageTables :=
  (tableIndices baseMb countMb).foldl (mapHighTable l) t

/-- The three `memset` calls and the two mappings of `paging_init`. -/
def pagingInit (l : KernelLayout) : PageTables :=
  mapHighKernel l (mapIdentityRange l ⟨fun _ => 0, fun _ _ => 0, fun _ _ => 0⟩ 0 8) 0 8

/-- The word of physical memory at an address, with the tables at their link
addresses and `ram` elsewhere. -/
def physWord (l : KernelLayout) (t : PageTables) (ram : Nat → Nat) (a : Nat) : Nat :=
  if l.directory ≤ a ∧ a < l.directory + 0x1000 then t.directory ((a - l.directory) / 4)
  else if l.low ≤ a ∧ a < l.low + 0x8000 then t.low ((a - l.low) / 4096) ((a - l.low) % 4096 / 4)
  else if l.high ≤ a ∧ a < l.high + 0x8000 then t.high ((a - l.high) / 4096) ((a - l.high) % 4096 / 4)
  else ram a

theorem foldl_update_range {α : Type} (g : Nat → α) (row : Nat → α) (n j : Nat) :
    (List.range n).foldl (fun row i => Function.update row i (g i)) row j = if j < n then g j else row j := by
  induction n with
  | zero => simp
  | succ n ih =>
    rw [List.range_succ, List.foldl_append, List.foldl_cons, List.foldl_nil]
    by_cases last : j = n
    · subst j
      simp
    · rw [Function.update_of_ne last, ih]
      exact if_congr (by omega) rfl rfl

/-- Flag bits go into the low bits of an aligned address. -/
theorem or_flags {a flags : Nat} (aligned : a % 4096 = 0) (small : flags < 4096) : a ||| flags = a + flags := by
  have shape : a = 2 ^ 12 * (a / 4096) := by omega
  rw [shape]
  exact (Nat.two_pow_add_eq_or_of_lt small (a / 4096)).symm

/-- The processor masks the flags of an entry off again. -/
theorem page_of_entry {a flags : Nat} (aligned : a % 4096 = 0) (small : flags < 4096) :
    (a + flags) / 4096 * 4096 = a := by
  omega

theorem fillTable_apply {flags table i : Nat} (row : Nat → Nat) (small : flags < 4096) (inTable : i < 1024)
    (inRange : table < 8) : fillTable flags table row i = (table * 1024 + i) * 4096 + flags := by
  unfold fillTable
  rw [foldl_update_range fun i => u32 ((table * 1024 + i) * 4096) ||| flags, if_pos inTable,
    u32_of_lt (by omega), or_flags (by omega) small]

theorem mem_tableIndices {table : Nat} : table ∈ tableIndices 0 8 ↔ table < 8 := by
  have all : tableIndices 0 8 = List.range 8 := by decide
  rw [all, List.mem_range]

/-- What a loop does for each item it visits, and later items leave alone, it has done for all
of them. -/
theorem foldl_visited {α β : Type} {f : β → α → β} {P : α → β → Prop} {as : List α}
    (visits : ∀ b, ∀ a ∈ as, P a (f b a)) (leaves : ∀ b a c, a ≠ c → P a b → P a (f b c)) (b : β) {a : α}
    (member : a ∈ as) : P a (as.foldl f b) := by
  induction as using List.reverseRecOn with
  | nil => simp at member
  | append_singleton as last ih =>
    rw [List.foldl_append, List.foldl_cons, List.foldl_nil]
    by_cases same : a = last
    · rw [← same]
      exact visits _ a member
    · have before : a ∈ as := by simpa [same] using member
      exact leaves _ a last same (ih (fun b c inside => visits b c (List.mem_append_left _ inside)) before)

/-- After the high mapping loop has visited the listed tables. -/
theorem foldl_mapHighTable (l : KernelLayout) {ts : List Nat} (inRange : ∀ table ∈ ts, table < 8) (t : PageTables)
    {table : Nat} (member : table ∈ ts) :
    (ts.foldl (mapHighTable l) t).directory (768 + table) = l.high + table * 4096 + 3 ∧
      ∀ i, i < 1024 → (ts.foldl (mapHighTable l) t).high table i = (table * 1024 + i) * 4096 + 3 := by
  have aligned := l.highAligned
  refine foldl_visited (P := fun table (t : PageTables) => t.directory (768 + table) = l.high + table * 4096 + 3 ∧
    ∀ i, i < 1024 → t.high table i = (table * 1024 + i) * 4096 + 3) (fun t table member => ?_)
    (fun t table last differ kept => ?_) t member
  · unfold mapHighTable
    refine ⟨?_, fun i inTable => ?_⟩
    · simp only [Function.update_self]
      exact or_flags (by omega) (by decide)
    · simp only [Function.update_self]
      exact fillTable_apply _ (by decide) inTable (inRange _ member)
  · have shifted : 768 + table ≠ 768 + last := by omega
    simp only [mapHighTable, Function.update_of_ne differ, Function.update_of_ne shifted]
    exact kept

theorem pagingInit_directory_high (l : KernelLayout) {table : Nat} (inRange : table < 8) :
    (pagingInit l).directory (768 + table) = l.high + table * 4096 + 3 := by
  unfold pagingInit
  exact (foldl_mapHighTable l (fun _ => mem_tableIndices.mp) _ (mem_tableIndices.mpr inRange)).1

theorem pagingInit_high (l : KernelLayout) {table i : Nat} (inRange : table < 8) (inTable : i < 1024) :
    (pagingInit l).high table i = (table * 1024 + i) * 4096 + 3 := by
  unfold pagingInit
  exact (foldl_mapHighTable l (fun _ => mem_tableIndices.mp) _ (mem_tableIndices.mpr inRange)).2 i inTable

end LearningOS
