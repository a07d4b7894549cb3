import LearningOS.Fs.Ramfs
import LearningOS.Store.Strings

namespace LearningOS
open ByteStore

/-- The source and the count of the `memcpy` of `ramfs_read`. -/
def ramfsReadCopy (fs : Ramfs) (node : Fin 9) (offset size : Nat) : Nat × Nat :=
  match (fs.nodes node).impl with
  | none => (0, 0)
  | some r =>
    let file := fs.nodes r
    if file.data = 0 ∨ offset ≥ file.size then (0, 0)
    else (file.data + offset, if u32 (offset + size) > file.size then file.size - offset else size)

/-- A node whose functions are those of the file `r`, a structure of 32-bit fields. -/
structure FileNode (fs : Ramfs) (node r : Fin 9) : Prop where
  impl : (fs.nodes node).impl = some r
  read : (fs.nodes node).read = true
  data : (fs.nodes r).data < 2 ^ 32
  size : (fs.nodes r).size < 2 ^ 32

/-- The bytes of a file. -/
def fileContent (m : Bytes) (file : RamfsNode) : List UInt8 :=
  if file.data = 0 then [] else copyOut m file.data file.size

/-- Sequential reads from `off` on, the `k`-th with a buffer of `chunks k` bytes, until one
returns 0: what they read, none where there are more than `rounds` of them. -/
def readAll (m : Bytes) (fs : Ramfs) (node : Option (Fin 9)) (chunks : Nat → Nat) :
    Nat → Nat → Nat → Option (List UInt8)
  | 0, _, _ => none
  | rounds + 1, k, off =>
    let (n, buf) := vfsRead m fs node off (chunks k)
    if n = 0 then some []
    else (readAll m fs node chunks rounds (k + 1) (u32 (off + n))).map (buf ++ ·)

/-- The loop of `shell_cat`. -/
def shellCat (m : Bytes) (fs : Ramfs) (node : Option (Fin 9)) (rounds : Nat) : Option (List UInt8) :=
  readAll m fs node (fun _ => 512) rounds 0 0

/-- Where the `k`-th read begins if each before it fills its buffer. -/
def chunkStart (chunks : Nat → Nat) (k : Nat) : Nat := ((List.range k).map chunks).sum

/-- The read returns what there is of the content from `offset` on, and copies from nowhere
else. -/
def ReadsExactly (m : Bytes) (fs : Ramfs) (node r : Fin 9) (offset size : Nat) : Prop :=
  vfsRead m fs (some node) offset size =
      (min size ((fileContent m (fs.nodes r)).length - offset), ((fileContent m (fs.nodes r)).drop offset).take size) ∧
    ∀ j, j < (ramfsReadCopy fs node offset size).2 →
      sub32 (u32 ((ramfsReadCopy fs node offset size).1 + j)) (fs.nodes r).data < (fileContent m (fs.nodes r)).length

section
variable {m : Bytes} {fs : Ramfs} {node r : Fin 9} {offset size : Nat} {chunks : Nat → Nat}

theorem ramfsRead_eq (m : Bytes) (fs : Ramfs) (node : Fin 9) (offset size : Nat) :
    ramfsRead m fs node offset size = ((ramfsReadCopy fs node offset size).2,
      copyOut m (ramfsReadCopy fs node offset size).1 (ramfsReadCopy fs node offset size).2) := by
  unfold ramfsRead ramfsReadCopy
  cases (fs.nodes node).impl with
  | none => rfl
  | some r =>
    dsimp only
    split <;> rfl

theorem copyOut_drop_take {a n : Nat} (inside : offset + size ≤ n) :
    ((copyOut m a n).drop offset).take size = copyOut m (a + offset) size := by
  change ((window (wrapped m) a n).drop offset).take size = window (wrapped m) (a + offset) size
  rw [window_drop, window_take _ _ (by omega)]

theorem fileContent_length (m : Bytes) (file : RamfsNode) :
    (fileContent m file).length = if file.data = 0 then 0 else file.size := by
  unfold fileContent
  split
  · rfl
  · exact copyOut_length _ _ _

namespace FileNode

theorem vfsRead_eq (is : FileNode fs node r) (m : Bytes) (offset size : Nat) :
    vfsRead m fs (some node) offset size = ((ramfsReadCopy fs node offset size).2,
      copyOut m (ramfsReadCopy fs node offset size).1 (ramfsReadCopy fs node offset size).2) := by
  rw [vfsRead, if_pos is.read, ramfsRead_eq]

theorem copy_past (is : FileNode fs node r) (past : (fileContent m (fs.nodes r)).length ≤ offset) :
    ramfsReadCopy fs node offset size = (0, 0) := by
  rw [fileContent_length] at past
  simp only [ramfsReadCopy, is.impl]
  refine if_pos ?_
  by_cases null : (fs.nodes r).data = 0
  · exact Or.inl null
  · rw [if_neg null] at past
    exact Or.inr past

/-- A read that begins inside the content: the sum of the clamp wraps to less than the
content, or is the sum itself. -/
theorem copy_inside (is : FileNode fs node r) (inside : offset < (fileContent m (fs.nodes r)).length)
    (sizeWord : size < 2 ^ 32) :
    ramfsReadCopy fs node offset size = ((fs.nodes r).data + offset,
      if offset + size < 2 ^ 32 then min size ((fileContent m (fs.nodes r)).length - offset) else size) := by
  rw [fileContent_length] at inside ⊢
  by_cases null : (fs.nodes r).data = 0
  · rw [if_pos null] at inside
    omega
  rw [if_neg null] at inside ⊢
  have fileWord := is.size
  simp only [ramfsReadCopy, is.impl]
  rw [if_neg (by omega)]
  refine Prod.ext rfl ?_
  dsimp only
  by_cases wraps : offset + size < 2 ^ 32
  · rw [if_pos wraps, u32_of_lt wraps]
    split <;> omega
  · rw [if_neg wraps, if_neg]
    unfold u32
    omega

theorem readsExactly_iff (is : FileNode fs node r) (sizeWord : size < 2 ^ 32) :
    ReadsExactly m fs node r offset size ↔
      (fileContent m (fs.nodes r)).length ≤ offset ∨ offset + size < 2 ^ 32 := by
  unfold ReadsExactly
  rw [is.vfsRead_eq]
  rcases Nat.lt_or_ge offset (fileContent m (fs.nodes r)).length with inside | past
  · rw [is.copy_inside inside sizeWord]
    have notNull : (fs.nodes r).data ≠ 0 := by
      intro null
      rw [fileContent_length, if_pos null] at inside
      omega
    have length := fileContent_length m (fs.nodes r)
    rw [if_neg notNull] at length
    have content : fileContent m (fs.nodes r) = copyOut m (fs.nodes r).data (fs.nodes r).size := if_neg notNull
    by_cases wraps : offset + size < 2 ^ 32
    · rw [if_pos wraps]
      refine iff_of_true ⟨Prod.ext rfl ?_, fun j below => ?_⟩ (Or.inr wraps)
      · dsimp only
        rw [length, content]
        rcases Nat.le_total size ((fs.nodes r).size - offset) with less | more
        · rw [Nat.min_eq_left less, copyOut_drop_take (by omega)]
        · rw [Nat.min_eq_right more, ← copyOut_drop_take (n := (fs.nodes r).size) (by omega),
            List.take_of_length_le (by simp), List.take_of_length_le (by simpa using more)]
      · have dataWord := is.data
        have fileWord := is.size
        dsimp only at below ⊢
        unfold sub32 u32
        omega
    · rw [if_neg wraps]
      refine iff_of_false (fun exact => ?_) (by omega)
      have count := congrArg Prod.fst exact.1
      dsimp only at count
      have fileWord := is.size
      omega
  · rw [is.copy_past past]
    refine iff_of_true ⟨?_, fun j below => absurd below (Nat.not_lt_zero j)⟩ (Or.inl past)
    rw [Nat.sub_eq_zero_of_le past, List.drop_eq_nil_of_le past, Nat.min_zero, List.take_nil]
    rfl

theorem vfsRead_fits (is : FileNode fs node r) (sizeWord : size < 2 ^ 32) (fits : offset + size < 2 ^ 32) :
    vfsRead m fs (some node) offset size =
      (min size ((fileContent m (fs.nodes r)).length - offset), ((fileContent m (fs.nodes r)).drop offset).take size) :=
  ((is.readsExactly_iff sizeWord).mpr (Or.inr fits)).1

theorem vfsRead_past (is : FileNode fs node r) (past : (fileContent m (fs.nodes r)).length ≤ offset) :
    vfsRead m fs (some node) offset size = (0, []) := by
  rw [is.vfsRead_eq, is.copy_past past]
  rfl

end FileNode

theorem readAll_done {node : Option (Fin 9)} {rounds k off : Nat} {buf : List UInt8}
    (read : vfsRead m fs node off (chunks k) = (0, buf)) : readAll m fs node chunks (rounds + 1) k off = some [] := by
  rw [readAll, read]
  exact if_pos rfl

theorem readAll_next {node : Option (Fin 9)} {rounds k off n : Nat} {buf : List UInt8}
    (read : vfsRead m fs node off (chunks k) = (n, buf)) (more : n ≠ 0) :
    readAll m fs node chunks (rounds + 1) k off =
      (readAll m fs node chunks rounds (k + 1) (u32 (off + n))).map (buf ++ ·) := by
  rw [readAll, read]
  exact if_neg more

theorem chunkStart_succ (chunks : Nat → Nat) (k : Nat) :
    chunkStart chunks (k + 1) = chunkStart chunks k + chunks k := by
  simp [chunkStart, List.range_succ]

theorem chunkStart_le (chunks : Nat → Nat) {j k : Nat} (le : j ≤ k) : chunkStart chunks j ≤ chunkStart chunks k := by
  induction le with
  | refl => exact Nat.le_refl _
  | step _ ih =>
    rw [chunkStart_succ]
    omega

namespace FileNode

theorem content_lt (is : FileNode fs node r) (m : Bytes) : (fileContent m (fs.nodes r)).length < 2 ^ 32 := by
  have fileWord := is.size
  rw [fileContent_length]
  split <;> omega

/-- Reads none of which wraps come to the end of the content, each with the next of its
bytes. -/
theorem readAll_eq (is : FileNode fs node r) (positive : ∀ k, 0 < chunks k) (words : ∀ k, chunks k < 2 ^ 32)
    (fits : ∀ k, chunkStart chunks k < (fileContent m (fs.nodes r)).length → chunkStart chunks k + chunks k < 2 ^ 32)
    {rounds k off : Nat} (start : off = min (chunkStart chunks k) (fileContent m (fs.nodes r)).length)
    (enough : (fileContent m (fs.nodes r)).length - off < rounds) :
    readAll m fs (some node) chunks rounds k off = some ((fileContent m (fs.nodes r)).drop off) := by
  induction rounds generalizing k off with
  | zero => omega
  | succ rounds ih =>
    have contentWord := is.content_lt m
    by_cases inside : off < (fileContent m (fs.nodes r)).length
    · have first := positive k
      have fit := fits k (by omega)
      rw [readAll_next (is.vfsRead_fits (words k) (by omega)) (by omega), u32_of_lt (by omega),
        ih (by rw [chunkStart_succ]; omega) (by omega), Option.map_some, ← List.drop_drop]
      refine congrArg some ?_
      rcases Nat.le_total (chunks k) ((fileContent m (fs.nodes r)).length - off) with less | more
      · rw [Nat.min_eq_left less, List.take_append_drop]
      · have rest : ((fileContent m (fs.nodes r)).drop off).drop ((fileContent m (fs.nodes r)).length - off) = [] :=
          List.drop_of_length_le (by simp)
        rw [Nat.min_eq_right more, rest, List.append_nil, List.take_of_length_le (by simpa using more)]
    · rw [readAll_done (is.vfsRead_past (by omega)), List.drop_of_length_le (by omega)]

/-- Reads come to the first one that wraps with the content up to there. -/
theorem readAll_prefix (is : FileNode fs node r) (positive : ∀ k, 0 < chunks k) (words : ∀ k, chunks k < 2 ^ 32)
    {k : Nat} (before : ∀ j, j < k → chunkStart chunks j + chunks j < 2 ^ 32)
    (inside : chunkStart chunks k < (fileContent m (fs.nodes r)).length) {rounds : Nat} {out : List UInt8}
    (run : readAll m fs (some node) chunks rounds 0 0 = some out) :
    ∃ rounds' rest, readAll m fs (some node) chunks rounds' k (chunkStart chunks k) = some rest ∧
      out = (fileContent m (fs.nodes r)).take (chunkStart chunks k) ++ rest := by
  induction k with
  | zero => exact ⟨rounds, out, run, rfl⟩
  | succ k ih =>
    have contentWord := is.content_lt m
    rw [chunkStart_succ] at inside
    obtain ⟨rounds', rest, later, whole⟩ := ih (fun j below => before j (by omega)) (by omega)
    cases rounds' with
    | zero => cases later
    | succ rounds' =>
      have first := positive k
      rw [readAll_next (is.vfsRead_fits (words k) (before k (by omega))) (by omega)] at later
      obtain ⟨rest', later', rfl⟩ := Option.map_eq_some_iff.mp later
      rw [Nat.min_eq_left (by omega), u32_of_lt (by omega), ← chunkStart_succ] at later'
      refine ⟨rounds', rest', later', ?_⟩
      rw [whole, chunkStart_succ, List.take_add, List.append_assoc]

/-- Sequential reads yield the content once exactly if none of those that begin inside it
wraps. -/
theorem readAll_content_iff (is : FileNode fs node r) (positive : ∀ k, 0 < chunks k) (words : ∀ k, chunks k < 2 ^ 32) :
    (∃ rounds, readAll m fs (some node) chunks rounds 0 0 = some (fileContent m (fs.nodes r))) ↔
      ∀ k, chunkStart chunks k < (fileContent m (fs.nodes r)).length → chunkStart chunks k + chunks k < 2 ^ 32 := by
  constructor
  · rintro ⟨rounds, run⟩ k
    induction k using Nat.strong_induction_on with
    | _ k ih =>
      intro inside
      have before : ∀ j, j < k → chunkStart chunks j + chunks j < 2 ^ 32 := fun j below =>
        ih j below (Nat.lt_of_le_of_lt (chunkStart_le chunks (Nat.le_of_lt below)) inside)
      obtain ⟨rounds', rest, later, whole⟩ := is.readAll_prefix positive words before inside run
      by_contra wraps
      cases rounds' with
      | zero => cases later
      | succ rounds' =>
        have read := is.vfsRead_eq m (chunkStart chunks k) (chunks k)
        rw [is.copy_inside inside (words k), if_neg wraps] at read
        have first := positive k
        rw [readAll_next read (by dsimp only; omega)] at later
        obtain ⟨rest', _, rfl⟩ := Option.map_eq_some_iff.mp later
        -- what has been read by now is longer than any file
        have length := congrArg List.length whole
        have contentWord := is.content_lt m
        rw [List.length_append, List.length_append, copyOut_length, List.length_take] at length
        dsimp only at length
        omega
  · intro fits
    exact ⟨(fileContent m (fs.nodes r)).length + 1,
      is.readAll_eq positive words fits (by simp [chunkStart]) (by omega)⟩

end FileNode

/-- A single read is exact, and sequential reads yield the content once, exactly if no read
that begins inside the content has an offset and a size whose sum wraps. -/
theorem ramfs_read_exact_iff (is : FileNode fs node r) :
    (∀ offset size, size < 2 ^ 32 → (ReadsExactly m fs node r offset size ↔
      (fileContent m (fs.nodes r)).length ≤ offset ∨ offset + size < 2 ^ 32)) ∧
    ∀ chunks : Nat → Nat, (∀ k, 0 < chunks k) → (∀ k, chunks k < 2 ^ 32) →
      ((∃ rounds, readAll m fs (some node) chunks rounds 0 0 = some (fileContent m (fs.nodes r))) ↔
        ∀ k, chunkStart chunks k < (fileContent m (fs.nodes r)).length → chunkStart chunks k + chunks k < 2 ^ 32) :=
  ⟨fun _ _ sizeWord => is.readsExactly_iff sizeWord, fun _ positive words => is.readAll_content_iff positive words⟩

/-- `shell_cat` puts out the content of a file that ends a buffer before the end of the
offsets. -/
theorem shellCat_content (is : FileNode fs node r) (short : (fileContent m (fs.nodes r)).length + 511 < 2 ^ 32) :
    ∃ rounds, shellCat m fs (some node) rounds = some (fileContent m (fs.nodes r)) := by
  refine (is.readAll_content_iff (fun _ => by decide) fun _ => by decide).mpr fun k inside => ?_
  omega

end

/-- A read of the 17 bytes of `hello.txt` from the second on, with a size of `2 ^ 32 - 1`. -/
theorem ramfs_read_past_content :
    ¬ ReadsExactly (fun _ => 0) (ramfsInit blankFs 0x200000) 1 1 1 0xFFFFFFFF := by
  intro exact
  have count := congrArg Prod.fst exact.1
  rw [vfsRead, if_pos (by decide), ramfsRead_eq] at count
  revert count
  rw [fileContent_length]
  decide

theorem ramfs_read_exact_hello :
    (∀ offset size, size < 2 ^ 32 → (ReadsExactly (fun _ => 0) (ramfsInit blankFs 0x200000) 1 1 offset size ↔
      (fileContent (fun _ => 0) ((ramfsInit blankFs 0x200000).nodes 1)).length ≤ offset ∨ offset + size < 2 ^ 32)) ∧
    ∀ chunks : Nat → Nat, (∀ k, 0 < chunks k) → (∀ k, chunks k < 2 ^ 32) →
      ((∃ rounds, readAll (fun _ => 0) (ramfsInit blankFs 0x200000) (some 1) chunks rounds 0 0 =
          some (fileContent (fun _ => 0) ((ramfsInit blankFs 0x200000).nodes 1))) ↔
        ∀ k, chunkStart chunks k < (fileContent (fun _ => 0) ((ramfsInit blankFs 0x200000).nodes 1)).length →
          chunkStart chunks k + chunks k < 2 ^ 32) :=
  ramfs_read_exact_iff ⟨by decide, by decide, by decide, by decide⟩

end LearningOS
