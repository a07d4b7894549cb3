import LearningOS.Fs.Ramfs

namespace LearningOS
open ByteStore

/-- What a write leaves behind, with the destination and the count of each of its `memcpy`
calls. -/
structure WriteDone where
  heap : Heap
  fs : Ramfs
  ret : Nat
  frees : List FreeCall
  copies : List (Nat × Nat)

/-- `ramfsStore` with its copy behind those of `copies`. -/
def ramfsStoreWith (h : Heap) (fs : Ramfs) (r : Fin 9) (offset : Nat) (buffer : List UInt8) (frees : List FreeCall)
    (copies : List (Nat × Nat)) : WriteDone :=
  let file := fs.nodes r
  if file.data = 0 then ⟨h, fs, 0, frees, copies⟩
  else
    ⟨{ h with mem := copyIn h.mem (file.data + offset) buffer }, fs, buffer.length, frees,
      copies ++ [(file.data + offset, buffer.length)]⟩

/-- `ramfs_write` with its copies, for an allocator in place of `kmalloc`. -/
def ramfsWriteWith (alloc : Heap → Nat → Option (Heap × Nat)) (h : Heap) (fs : Ramfs) (node : Fin 9) (offset : Nat)
    (buffer : List UInt8) : Option WriteDone :=
  match (fs.nodes node).impl with
  | none => some ⟨h, fs, 0, [], []⟩
  | some r =>
    let file := fs.nodes r
    let newSize := u32 (offset + buffer.length)
    if newSize > file.size then
      if file.ownsData then
        (alloc h newSize).bind fun (h, newData) =>
          if newData = 0 then some ⟨h, fs, 0, [], []⟩
          else
            let grown := fs.setNode r { file with data := newData, size := newSize, length := newSize }
            if file.data ≠ 0 ∧ file.size > 0 then
              let h := { h with mem := memcpy h.mem newData file.data file.size }
              (kfree h file.data).map fun h' =>
                ramfsStoreWith h' grown r offset buffer [⟨h, file.data⟩] [(newData, file.size)]
            else some (ramfsStoreWith h grown r offset buffer [] [])
      else if offset ≥ file.size then some ⟨h, fs, 0, [], []⟩
      else some (ramfsStoreWith h fs r offset (buffer.take (file.size - offset)) [] [])
    else some (ramfsStoreWith h fs r offset buffer [] [])

def vfsWriteWith (alloc : Heap → Nat → Option (Heap × Nat)) (h : Heap) (fs : Ramfs) (node : Option (Fin 9))
    (offset : Nat) (buffer : List UInt8) : Option WriteDone :=
  match node with
  | none => some ⟨h, fs, 0, [], []⟩
  | some n => if (fs.nodes n).write then ramfsWriteWith alloc h fs n offset buffer else some ⟨h, fs, 0, [], []⟩

/-- The heap, the tree, the result and the calls of `kfree`. -/
def WriteDone.outcome (w : WriteDone) : Heap × Ramfs × Nat × List FreeCall := (w.heap, w.fs, w.ret, w.frees)

/-- The address is that of one of the first `size` bytes at `data`. -/
def InBuffer (data size a : Nat) : Prop := ∃ i, i < size ∧ u32 a = u32 (data + i)

/-- Every byte stored lies in the buffer the file has after the write, and the bytes of the
caller are stored from `offset` on, as many as the write returns. -/
def StoresInside (w : WriteDone) (r : Fin 9) (offset : Nat) : Prop :=
  (∀ copy ∈ w.copies, ∀ j, j < copy.2 → InBuffer (w.fs.nodes r).data (w.fs.nodes r).size (copy.1 + j)) ∧
    (w.copies = [] ∧ w.ret = 0 ∨ ∃ front, w.copies = front ++ [((w.fs.nodes r).data + offset, w.ret)] ∧
      ∀ copy ∈ front, copy.1 = (w.fs.nodes r).data)

section
variable {alloc : Heap → Nat → Option (Heap × Nat)} {h : Heap} {fs : Ramfs} {node r : Fin 9} {offset : Nat}
  {buffer : List UInt8} {w : WriteDone}

theorem ramfsStoreWith_outcome (frees : List FreeCall) (copies : List (Nat × Nat)) :
    (ramfsStoreWith h fs r offset buffer frees copies).outcome =
      ((ramfsStore h fs r offset buffer).1, (ramfsStore h fs r offset buffer).2.1,
        (ramfsStore h fs r offset buffer).2.2, frees) := by
  unfold ramfsStoreWith ramfsStore WriteDone.outcome
  by_cases null : (fs.nodes r).data = 0
  · simp only [if_pos null]
  · simp only [if_neg null]

/-- With `kmalloc`, the write is that of the model. -/
theorem vfsWriteWith_kmalloc (h : Heap) (fs : Ramfs) (node : Option (Fin 9)) (offset : Nat) (buffer : List UInt8) :
    (vfsWriteWith kmalloc h fs node offset buffer).map WriteDone.outcome = vfsWrite h fs node offset buffer := by
  cases node with
  | none => rfl
  | some n =>
    unfold vfsWriteWith vfsWrite
    by_cases write : (fs.nodes n).write
    · simp only [if_pos write]
      unfold ramfsWriteWith ramfsWrite
      cases (fs.nodes n).impl with
      | none => rfl
      | some r =>
        dsimp only
        by_cases larger : u32 (offset + buffer.length) > (fs.nodes r).size
        · rw [if_pos larger, if_pos larger]
          by_cases owns : (fs.nodes r).ownsData
          · rw [if_pos owns, if_pos owns, ramfsGrow]
            cases kmalloc h (u32 (offset + buffer.length)) with
            | none => rfl
            | some got =>
              obtain ⟨h₁, p⟩ := got
              simp only [Option.bind_some]
              by_cases null : p = 0
              · rw [if_pos null, if_pos null]
                rfl
              · rw [if_neg null, if_neg null]
                by_cases old : (fs.nodes r).data ≠ 0 ∧ (fs.nodes r).size > 0
                · rw [if_pos old, if_pos old, Option.map_map, Option.map_map]
                  exact congrArg (Option.map · _) (funext fun h' => ramfsStoreWith_outcome _ _)
                · rw [if_neg old, if_neg old]
                  exact congrArg some (ramfsStoreWith_outcome _ _)
          · rw [if_neg owns, if_neg owns]
            by_cases past : offset ≥ (fs.nodes r).size
            · rw [if_pos past, if_pos past]
              rfl
            · rw [if_neg past, if_neg past]
              exact congrArg some (ramfsStoreWith_outcome _ _)
        · rw [if_neg larger, if_neg larger]
          exact congrArg some (ramfsStoreWith_outcome _ _)
    · simp only [if_neg write]
      rfl

/-- A file that is to grow to `newSize` does not: it does not own its data, or `kmalloc`
fails. One that is not to grow has no data. -/
def NotGrown (alloc : Heap → Nat → Option (Heap × Nat)) (h : Heap) (file : RamfsNode) (newSize : Nat) : Prop :=
  if newSize > file.size then file.ownsData = true → ∃ h', alloc h newSize = some (h', 0) else file.data = 0

/-- What a write comes to: nothing is stored, the bytes are stored in the buffer as it is, cut
where they would leave it, or in a new one. -/
inductive WriteCase (alloc : Heap → Nat → Option (Heap × Nat)) (h : Heap) (fs : Ramfs) (r : Fin 9) (offset : Nat)
    (buffer : List UInt8) (w : WriteDone) : Prop
  | idle (same : w.fs = fs) (copies : w.copies = []) (ret : w.ret = 0)
      (grown : NotGrown alloc h (fs.nodes r) (u32 (offset + buffer.length)))
  | inPlace (same : w.fs = fs) (copies : w.copies = [((fs.nodes r).data + offset, buffer.length)])
      (ret : w.ret = buffer.length) (fits : u32 (offset + buffer.length) ≤ (fs.nodes r).size)
      (notNull : (fs.nodes r).data ≠ 0)
  | cut (same : w.fs = fs)
      (copies : w.copies = [((fs.nodes r).data + offset, (buffer.take ((fs.nodes r).size - offset)).length)])
      (ret : w.ret = (buffer.take ((fs.nodes r).size - offset)).length)
      (larger : (fs.nodes r).size < u32 (offset + buffer.length)) (shared : (fs.nodes r).ownsData ≠ true)
      (inside : offset < (fs.nodes r).size)
  | grown (h' : Heap) (p : Nat) (front : List (Nat × Nat))
      (call : alloc h (u32 (offset + buffer.length)) = some (h', p))
      (pointer : p ≠ 0) (data : (w.fs.nodes r).data = p) (size : (w.fs.nodes r).size = u32 (offset + buffer.length))
      (old : ∀ copy ∈ front, copy = (p, (fs.nodes r).size)) (copies : w.copies = front ++ [(p + offset, buffer.length)])
      (ret : w.ret = buffer.length) (larger : (fs.nodes r).size < u32 (offset + buffer.length))
      (owns : (fs.nodes r).ownsData = true)

theorem ramfsWriteWith_cases (impl : (fs.nodes node).impl = some r)
    (run : ramfsWriteWith alloc h fs node offset buffer = some w) : WriteCase alloc h fs r offset buffer w := by
  simp only [ramfsWriteWith, impl] at run
  by_cases larger : u32 (offset + buffer.length) > (fs.nodes r).size
  · rw [if_pos larger] at run
    by_cases owns : (fs.nodes r).ownsData
    · rw [if_pos owns] at run
      obtain ⟨⟨h₁, p⟩, call, rest⟩ := Option.bind_eq_some_iff.mp run
      by_cases null : p = 0
      · subst null
        rw [if_pos rfl] at rest
        cases rest
        exact .idle rfl rfl rfl (by rw [NotGrown, if_pos larger]; exact fun _ => ⟨h₁, call⟩)
      · rw [if_neg null] at rest
        have stored (h' : Heap) (frees : List FreeCall) (front : List (Nat × Nat))
            (old : ∀ copy ∈ front, copy = (p, (fs.nodes r).size))
            (made : ramfsStoreWith h' (fs.setNode r { fs.nodes r with
              data := p, size := u32 (offset + buffer.length), length := u32 (offset + buffer.length) }) r offset buffer
              frees front = w) : WriteCase alloc h fs r offset buffer w := by
          subst made
          simp only [ramfsStoreWith, Ramfs.setNode, Function.update_self, if_neg null]
          exact .grown h₁ p front call null (by simp) (by simp) old rfl rfl larger owns
        by_cases old : (fs.nodes r).data ≠ 0 ∧ (fs.nodes r).size > 0
        · rw [if_pos old] at rest
          obtain ⟨h', _, made⟩ := Option.map_eq_some_iff.mp rest
          exact stored h' _ _ (fun copy member => List.mem_singleton.mp member) made
        · rw [if_neg old] at rest
          exact stored h₁ _ _ (fun copy member => absurd member List.not_mem_nil) (Option.some.inj rest)
    · rw [if_neg owns] at run
      by_cases past : offset ≥ (fs.nodes r).size
      · rw [if_pos past] at run
        cases run
        exact .idle rfl rfl rfl (by rw [NotGrown, if_pos larger]; exact fun own => absurd own owns)
      · rw [if_neg past] at run
        cases run
        by_cases null : (fs.nodes r).data = 0
        · simp only [ramfsStoreWith, if_pos null]
          exact .idle rfl rfl rfl (by rw [NotGrown, if_pos larger]; exact fun own => absurd own owns)
        · simp only [ramfsStoreWith, if_neg null]
          exact .cut rfl rfl rfl larger owns (by omega)
  · rw [if_neg larger] at run
    cases run
    by_cases null : (fs.nodes r).data = 0
    · simp only [ramfsStoreWith, if_pos null]
      exact .idle rfl rfl rfl (by rw [NotGrown, if_neg larger]; exact null)
    · simp only [ramfsStoreWith, if_neg null]
      exact .inPlace rfl rfl rfl (by omega) null

/-- The allocator leaves a byte: the request for `n` bytes, and each call that frees a block. -/
def AllocKeeps (alloc : Heap → Nat → Option (Heap × Nat)) (h : Heap) (n : Nat) (frees : List FreeCall) (x : Nat) : Prop :=
  (∀ h' p, alloc h n = some (h', p) → h'.mem x = h.mem x) ∧
    ∀ call ∈ frees, ∀ h', kfree call.heap call.ptr = some h' → h'.mem x = call.heap.mem x

theorem copyIn_outside {m : Bytes} {dst x : Nat} {bs : List UInt8} (off : ∀ j, j < bs.length → x ≠ u32 (dst + j)) :
    copyIn m dst bs x = m x := by
  induction bs generalizing m dst with
  | nil => rfl
  | cons b bs ih =>
    have first : x ≠ u32 dst := off 0 (Nat.succ_pos _)
    rw [copyIn, ih, store_of_ne first]
    intro j inside
    have apart := off (j + 1) (Nat.succ_lt_succ inside)
    rwa [Nat.add_comm j, ← Nat.add_assoc] at apart

theorem ramfsStoreWith_frees (frees : List FreeCall) (copies : List (Nat × Nat)) :
    (ramfsStoreWith h fs r offset buffer frees copies).frees = frees := by
  unfold ramfsStoreWith
  by_cases null : (fs.nodes r).data = 0
  · rw [if_pos null]
  · rw [if_neg null]

/-- The copy of a write changes nothing but its own bytes. -/
theorem ramfsStoreWith_kept {frees : List FreeCall} {copies : List (Nat × Nat)} {x : Nat}
    (apart : ∀ copy ∈ (ramfsStoreWith h fs r offset buffer frees copies).copies, ∀ j, j < copy.2 → x ≠ u32 (copy.1 + j)) :
    (ramfsStoreWith h fs r offset buffer frees copies).heap.mem x = h.mem x ∧
      ∀ copy ∈ copies, ∀ j, j < copy.2 → x ≠ u32 (copy.1 + j) := by
  unfold ramfsStoreWith at apart ⊢
  by_cases null : (fs.nodes r).data = 0
  · rw [if_pos null] at apart ⊢
    exact ⟨rfl, apart⟩
  · rw [if_neg null] at apart ⊢
    obtain ⟨before, last⟩ := List.forall_mem_append.mp apart
    exact ⟨copyIn_outside (List.forall_mem_singleton.mp last), before⟩

/-- A write changes nothing but the bytes of its copies and what the allocator changes. -/
theorem ramfsWriteWith_kept (impl : (fs.nodes node).impl = some r)
    (run : ramfsWriteWith alloc h fs node offset buffer = some w) {x : Nat}
    (apart : ∀ copy ∈ w.copies, ∀ j, j < copy.2 → x ≠ u32 (copy.1 + j))
    (keeps : AllocKeeps alloc h (u32 (offset + buffer.length)) w.frees x) : w.heap.mem x = h.mem x := by
  simp only [ramfsWriteWith, impl] at run
  by_cases larger : u32 (offset + buffer.length) > (fs.nodes r).size
  · rw [if_pos larger] at run
    by_cases owns : (fs.nodes r).ownsData
    · rw [if_pos owns] at run
      obtain ⟨⟨h₁, p⟩, call, rest⟩ := Option.bind_eq_some_iff.mp run
      have allocated : h₁.mem x = h.mem x := keeps.1 h₁ p call
      dsimp only at rest
      by_cases null : p = 0
      · rw [if_pos null] at rest
        cases rest
        exact allocated
      rw [if_neg null] at rest
      by_cases old : (fs.nodes r).data ≠ 0 ∧ (fs.nodes r).size > 0
      · rw [if_pos old] at rest
        obtain ⟨h', freed, made⟩ := Option.map_eq_some_iff.mp rest
        subst made
        obtain ⟨stored, moved⟩ := ramfsStoreWith_kept apart
        rw [ramfsStoreWith_frees] at keeps
        have released := keeps.2 _ (List.mem_singleton.mpr rfl) h' freed
        rw [stored, released, ← allocated]
        exact memcpy_outside (moved _ (List.mem_singleton.mpr rfl))
      · rw [if_neg old] at rest
        cases rest
        exact (ramfsStoreWith_kept apart).1.trans allocated
    · rw [if_neg owns] at run
      by_cases past : offset ≥ (fs.nodes r).size
      · rw [if_pos past] at run
        cases run
        rfl
      · rw [if_neg past] at run
        cases run
        exact (ramfsStoreWith_kept apart).1
  · rw [if_neg larger] at run
    cases run
    exact (ramfsStoreWith_kept apart).1

/-- Bytes stored from `offset` on lie in a buffer exactly if there are none or the last of
them does, with no wrap on the way. -/
theorem inBuffer_iff {data size n : Nat} (offsetWord : offset < 2 ^ 32) (sizeWord : size < 2 ^ 32) :
    (∀ j, j < n → InBuffer data size (data + offset + j)) ↔ n = 0 ∨ offset + n ≤ size := by
  constructor
  · intro inside
    by_contra past
    obtain ⟨some, past⟩ := not_or.mp past
    obtain ⟨i, below, same⟩ := inside (min (n - 1) (2 ^ 32 - 1 - offset)) (by omega)
    obtain ⟨k, first, equal⟩ := inside 0 (by omega)
    unfold u32 at same equal
    omega
  · intro fits j below
    exact ⟨offset + j, by omega, by rw [Nat.add_assoc]⟩

/-- A write changes the bytes of its copies alone, but for the allocator's own. They lie in the
buffer of the file, and the caller's bytes are stored from the offset on, exactly if the offset
and the size do not wrap or nothing is stored. -/
theorem ramfs_write_inside_iff (impl : (fs.nodes node).impl = some r) (write : (fs.nodes node).write = true)
    (sizeWord : (fs.nodes r).size < 2 ^ 32) (offsetWord : offset < 2 ^ 32) (lengthWord : buffer.length < 2 ^ 32)
    (run : vfsWriteWith alloc h fs (some node) offset buffer = some w) :
    (∀ x, (∀ copy ∈ w.copies, ∀ j, j < copy.2 → x ≠ u32 (copy.1 + j)) →
      AllocKeeps alloc h (u32 (offset + buffer.length)) w.frees x → w.heap.mem x = h.mem x) ∧
    (StoresInside w r offset ↔
      offset + buffer.length < 2 ^ 32 ∨ NotGrown alloc h (fs.nodes r) (u32 (offset + buffer.length))) := by
  simp only [vfsWriteWith, if_pos write] at run
  refine ⟨fun x apart keeps => ramfsWriteWith_kept impl run apart keeps, ?_⟩
  have newWord : u32 (offset + buffer.length) < 2 ^ 32 := Nat.mod_lt _ (by decide)
  cases ramfsWriteWith_cases impl run with
  | idle same copies ret grown =>
    refine iff_of_true ⟨?_, Or.inl ⟨copies, ret⟩⟩ (Or.inr grown)
    rw [copies]
    exact fun copy member => absurd member List.not_mem_nil
  | inPlace same copies ret fits notNull =>
    have range : w.copies = [] ++ [((w.fs.nodes r).data + offset, w.ret)] := by rw [copies, same, ret]; rfl
    have stays : ¬ NotGrown alloc h (fs.nodes r) (u32 (offset + buffer.length)) := by
      rw [NotGrown, if_neg (by omega)]
      exact notNull
    rw [StoresInside, and_iff_left (Or.inr ⟨[], range, by simp⟩), or_iff_left stays, copies, same]
    simp only [List.forall_mem_singleton]
    rw [inBuffer_iff offsetWord sizeWord]
    unfold u32 at fits
    omega
  | cut same copies ret larger shared inside =>
    have range : w.copies = [] ++ [((w.fs.nodes r).data + offset, w.ret)] := by rw [copies, same, ret]; rfl
    refine iff_of_true ⟨?_, Or.inr ⟨[], range, by simp⟩⟩ (Or.inl (by unfold u32 at larger; omega))
    rw [copies, same]
    simp only [List.forall_mem_singleton]
    rw [inBuffer_iff offsetWord sizeWord, List.length_take]
    omega
  | grown h' p front call pointer data size old copies ret larger owns =>
    have range : w.copies = front ++ [((w.fs.nodes r).data + offset, w.ret)] := by rw [copies, data, ret]
    have starts : ∀ copy ∈ front, copy.1 = (w.fs.nodes r).data := fun copy member => by rw [old copy member, data]
    have grows : ¬ NotGrown alloc h (fs.nodes r) (u32 (offset + buffer.length)) := by
      rw [NotGrown, if_pos larger]
      intro refused
      obtain ⟨h'', refusal⟩ := refused owns
      cases Option.some.inj (call.symm.trans refusal)
      exact pointer rfl
    have moved : ∀ copy ∈ front, ∀ j, j < copy.2 → InBuffer p (u32 (offset + buffer.length)) (copy.1 + j) := by
      intro copy member j below
      rw [old copy member] at below ⊢
      exact ⟨j, by dsimp only at below; omega, rfl⟩
    rw [StoresInside, and_iff_left (Or.inr ⟨front, range, starts⟩), or_iff_left grows, copies, data, size,
      List.forall_mem_append, and_iff_right moved]
    simp only [List.forall_mem_singleton]
    rw [inBuffer_iff offsetWord newWord]
    unfold u32 at larger ⊢
    omega

end

/-- A tree with an empty file `a`, its node 2. -/
def sampleTree : Ramfs := (ramfsCreate (ramfsInit blankFs 0x200000) (ascii "a")).1

/-- The heap of the kernel before its first request, in memory that is zero. -/
def sampleHeap : Heap := heapInit (fun _ => 0) 0xC1000000 (1024 * 1024)

/-- Two bytes at the last offset there is: the sum wraps to 1, and the file gets a buffer of
one byte, in front of which the first is stored. -/
theorem ramfs_write_before_buffer :
    ¬ ∀ w, vfsWriteWith kmalloc sampleHeap sampleTree (some 2) 0xFFFFFFFF [1, 2] = some w →
      StoresInside w 2 0xFFFFFFFF := by
  intro claimed
  have run : (vfsWriteWith kmalloc sampleHeap sampleTree (some 2) 0xFFFFFFFF [1, 2]).map (fun w =>
      (w.copies, (w.fs.nodes 2).data, (w.fs.nodes 2).size)) = some ([(0x1C100000B, 2)], 0xC100000C, 1) := by
    decide +kernel
  obtain ⟨w, returned, fields⟩ := Option.map_eq_some_iff.mp run
  obtain ⟨copies, rest⟩ := Prod.ext_iff.mp fields
  obtain ⟨data, size⟩ := Prod.ext_iff.mp rest
  dsimp only at copies data size
  obtain ⟨i, below, same⟩ := (claimed w returned).1 (0x1C100000B, 2) (by rw [copies]; exact List.mem_singleton.mpr rfl)
    0 (by decide)
  rw [size] at below
  rw [data] at same
  unfold u32 at same
  omega

theorem ramfs_write_inside_sample :
    ∃ w, vfsWriteWith kmalloc sampleHeap sampleTree (some 2) 0 [1, 2] = some w ∧ (StoresInside w 2 0 ↔
      0 + [1, 2].length < 2 ^ 32 ∨ NotGrown kmalloc sampleHeap (sampleTree.nodes 2) (u32 (0 + [1, 2].length))) := by
  obtain ⟨w, run⟩ := Option.isSome_iff_exists.mp
    (show (vfsWriteWith kmalloc sampleHeap sampleTree (some 2) 0 [1, 2]).isSome by decide +kernel)
  exact ⟨w, run, (ramfs_write_inside_iff (by decide) (by decide) (by decide) (by decide) (by decide) run).2⟩

end LearningOS
