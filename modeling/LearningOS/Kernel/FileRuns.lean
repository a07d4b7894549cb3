import LearningOS.Kernel.Ownership
import LearningOS.Fs.Frame
import LearningOS.Fs.ReadExact

namespace LearningOS
open ByteStore

/-- Bytes written to a file: from its end to the offset there are zeros. -/
def overwrite (old : List UInt8) (write : Nat × List UInt8) : List UInt8 :=
  splice (old ++ List.replicate (write.1 - old.length) 0) write.1 write.2

/-- What was written, from an empty file on. -/
def written (writes : List (Nat × List UInt8)) : List UInt8 := writes.foldl overwrite []

/-- The bytes a step has stored in the file of node `c`, with their offset. -/
def writtenTo (c : Fin 9) (k : Kernel) : KernelOp → Option FsEvent → Option (Nat × List UInt8)
  | .fs (.write node offset buffer), some (_, .count n) =>
    if nodeOf k.fs node = some c ∧ n ≠ 0 then some (offset, buffer) else none
  | _, _ => none

/-- The runs of the kernel from the creation of the file of node `c` on, while it is linked,
with the successful writes to it; from then on each step meets a condition. -/
inductive FileRun (r : HeapRegion) (image : BootImage r) (c : Fin 9) (ok : Kernel → KernelOp → Prop) :
    Kernel → List (Nat × List UInt8) → Prop
  | created {k k' trace name frees} : KernelReach r image (fun k op => op.Allowed k) k trace →
      kernelStep k (.fs (.create name)) = some (k', some (.create name, .code 0), frees) →
      c ∉ linkedNodes k.fs → c ∈ linkedNodes k'.fs → FileRun r image c ok k' []
  | step {k k' writes op event frees} : FileRun r image c ok k writes → ok k op →
      kernelStep k op = some (k', event, frees) → c ∈ linkedNodes k'.fs →
      FileRun r image c ok k' (writes ++ (writtenTo c k op event).toList)

/-- A write to the file of node `c` begins in it or at its end, or finds no memory to grow it. -/
def LeavesNoGap (c : Fin 9) (k : Kernel) : KernelOp → Prop
  | .fs (.write node offset buffer) => nodeOf k.fs node = some c →
      offset ≤ (k.fs.nodes c).size ∨ memoryGranted k.heap (offset + buffer.length) = false
  | _ => True

section
variable {r : HeapRegion} {image : BootImage r} {hello : Nat} {c : Fin 9} {ok : Kernel → KernelOp → Prop}
  {k k' : Kernel} {kids : List (Fin 9)} {writes : List (Nat × List UInt8)}

theorem overwrite_inside {old buffer : List UInt8} {offset : Nat} (inside : offset ≤ old.length) :
    overwrite old (offset, buffer) = splice old offset buffer := by
  rw [overwrite, Nat.sub_eq_zero_of_le inside, List.replicate_zero, List.append_nil]

/-- A call that fits makes no owned file larger than a block can be. -/
theorem FsInv.write_small {others : List Nat} {h : Heap} {fs : Ramfs} (inv : FsInv r hello others h fs kids)
    {node : Option (List UInt8)} {offset : Nat} {buffer : List UInt8} {d : Fin 9}
    (fits : (FsOp.write node offset buffer).Fits (listing h.mem fs)) (atD : d ∈ kids) (found : nodeOf fs node = some d)
    (owns : (fs.nodes d).ownsData = true) (larger : (fs.nodes d).size < offset + buffer.length) :
    offset + buffer.length ≤ 0xFFFFFFF8 := by
  cases node with
  | none => exact absurd (Option.some.inj (inv.tree.vfsRoot.symm.trans found)) (inv.tree.ne_root atD).symm
  | some name =>
    rcases inv.lookup name with ⟨missing, _⟩ | ⟨_, _, _, _, _, _, found', view⟩
    · cases missing.symm.trans found
    · cases found'.symm.trans found
      have kind : (entryOf h.mem (fs.nodes d)).kind = .file := by
        rcases inv.tree.kid d atD with dir | file
        · cases dir.ownsData.symm.trans owns
        · simp [entryOf, kindOf, file.flags, owns]
      have size : (entryOf h.mem (fs.nodes d)).bytes.length = (fs.nodes d).size := window_length _ _ _
      exact fits _ view kind (by rw [size]; exact larger)

/-- A step on the file system leaves the entry of a file that stays, but for what it writes. -/
theorem fsStep_entry (inv : FsInv r hello (stackOwners k.sched) k.heap k.fs kids) {op : FsOp} (noWrap : op.NoWrap)
    (fits : op.Fits (listing k.heap.mem k.fs)) (noGap : LeavesNoGap c k (.fs op))
    (file : (entryOf k.heap.mem (k.fs.nodes c)).kind = .file) (member : c ∈ linkedNodes k.fs)
    {h' : Heap} {fs' : Ramfs} {result : FsResult} {frees : List FreeCall}
    (run : fsStep k.heap k.fs op = some (h', fs', result, frees)) (stays : c ∈ linkedNodes fs') :
    entryOf h'.mem (fs'.nodes c) = { entryOf k.heap.mem (k.fs.nodes c) with
      bytes := (writtenTo c k (.fs op) (some (op, result))).toList.foldl overwrite
        (entryOf k.heap.mem (k.fs.nodes c)).bytes } := by
  cases op with
  | create name =>
    cases run
    exact congrArg (entryOf k.heap.mem) (inv.make_entry (fillFile_ok hello name) member).2
  | mkdir name =>
    cases run
    exact congrArg (entryOf k.heap.mem) (inv.make_entry (fillDir_ok hello name) member).2
  | unlink name =>
    obtain ⟨⟨_, after, ret, _⟩, unlinked, equal⟩ := Option.map_eq_some_iff.mp run
    cases equal
    exact inv.unlink_entry unlinked stays
  | finddir node name =>
    cases run
    rfl
  | readdir node index =>
    cases run
    rfl
  | read node offset size =>
    cases run
    rfl
  | write node offset buffer =>
    obtain ⟨⟨_, after, n, _⟩, call, equal⟩ := Option.map_eq_some_iff.mp run
    cases equal
    rw [inv.tree.linked] at member
    have idle (other : nodeOf k.fs node ≠ some c) : writtenTo c k (.fs (.write node offset buffer))
        (some (.write node offset buffer, .count n)) = none := if_neg fun hit => other hit.1
    rcases inv.tree.node_cases node with missing | root | ⟨d, atD, found⟩
    · rw [missing] at call
      cases call
      rw [idle (by simp [missing])]
      rfl
    · have notRoot := inv.tree.ne_root member
      rw [root, vfsWrite, if_neg (by simp [inv.tree.write])] at call
      cases call
      rw [idle (by rw [root]; exact fun same => notRoot (Option.some.inj same).symm)]
      rfl
    · have small := inv.write_small fits atD found
      rw [found] at call
      have entries := inv.write_entries atD noWrap small call
      by_cases same : c = d
      · subst same
        have size : (entryOf k.heap.mem (k.fs.nodes c)).bytes.length = (k.fs.nodes c).size := window_length _ _ _
        rcases entries.own file (noGap found) with ⟨none, kept⟩ | ⟨some, inside, stored⟩
        · rw [kept, writtenTo, if_neg fun hit => hit.2 none]
          rfl
        · rw [stored, writtenTo, if_pos ⟨found, some⟩, Option.toList_some, List.foldl_cons, List.foldl_nil,
            overwrite_inside (by rw [size]; exact inside)]
      · rw [entries.others c member same, idle (by rw [found]; exact fun hit => same (Option.some.inj hit).symm)]
        rfl

/-- Steps of the other clients leave the tree. -/
theorem kernelStep_other {op : KernelOp} {event : Option FsEvent} {frees : List FreeCall}
    (other : ∀ call, op ≠ .fs call)
    (run : kernelStep k op = some (k', event, frees)) : k'.fs = k.fs ∧ event = none := by
  cases op with
  | fs call => exact absurd rfl (other call)
  | add entry =>
    obtain ⟨⟨_, _, _⟩, _, equal⟩ := Option.map_eq_some_iff.mp run
    cases equal
    exact ⟨rfl, rfl⟩
  | wait pid =>
    obtain ⟨⟨_, _, _, _, _⟩, _, equal⟩ := Option.map_eq_some_iff.mp run
    cases equal
    exact ⟨rfl, rfl⟩
  | start esp | timer esp | irq esp | yield esp | exit code esp =>
    obtain ⟨⟨_, _⟩, _, equal⟩ := Option.map_eq_some_iff.mp run
    cases equal
    exact ⟨rfl, rfl⟩
  | stack slot offset byte =>
    cases run
    exact ⟨rfl, rfl⟩

/-- A step of the kernel leaves the entry of a file that stays, but for what it writes. -/
theorem kernelStep_entry (inv : KernelInv r hello k kids) {op : KernelOp} (allowed : op.Allowed k)
    (noGap : LeavesNoGap c k op) (file : (entryOf k.heap.mem (k.fs.nodes c)).kind = .file)
    (member : c ∈ linkedNodes k.fs) {event : Option FsEvent} {frees : List FreeCall}
    (run : kernelStep k op = some (k', event, frees)) (stays : c ∈ linkedNodes k'.fs) :
    entryOf k'.heap.mem (k'.fs.nodes c) = { entryOf k.heap.mem (k.fs.nodes c) with
      bytes := (writtenTo c k op event).toList.foldl overwrite (entryOf k.heap.mem (k.fs.nodes c)).bytes } := by
  by_cases isFs : ∃ call, op = .fs call
  · obtain ⟨call, rfl⟩ := isFs
    obtain ⟨⟨_, _, _, _⟩, step, equal⟩ := Option.map_eq_some_iff.mp run
    cases equal
    exact fsStep_entry inv.fs allowed.1 allowed.2 noGap file member step stays
  · have other : ∀ call, op ≠ .fs call := fun call same => isFs ⟨call, same⟩
    obtain ⟨tree, rfl⟩ := kernelStep_other other run
    obtain ⟨_, _, _, run', done⟩ := inv.step allowed
    cases Option.some.inj (run.symm.trans run')
    rcases done.view with ⟨_, same⟩ | ⟨call, _, isCall, _⟩
    · rw [tree] at same ⊢
      have quiet : writtenTo c k op none = none := by
        cases op with
        | fs call => cases call <;> rfl
        | _ => rfl
      rw [FsInv.entry_of_listing_eq same member, quiet]
      rfl
    · exact absurd isCall (other call)

/-- In a run that leaves no gap, the file holds what was written to it. -/
theorem FileRun.entry (run : FileRun r image c ok k writes)
    (allowed : ∀ k op, ok k op → op.Allowed k ∧ LeavesNoGap c k op) :
    (∃ kids, KernelInv r image.hello k kids) ∧ c ∈ linkedNodes k.fs ∧
      ∃ name, entryOf k.heap.mem (k.fs.nodes c) = ⟨name, .file, written writes⟩ := by
  induction run with
  | @created k k' trace name frees reach create fresh made =>
    obtain ⟨kids, inv⟩ := reach.inv fun _ _ legal => legal
    obtain ⟨_, _, _, run', done⟩ := inv.step (show (KernelOp.fs (.create name)).Allowed k from ⟨trivial, trivial⟩)
    cases Option.some.inj (create.symm.trans run')
    refine ⟨done.inv, made, ?_⟩
    have after : k' = { k with fs := (ramfsCreate k.fs name).1 } :=
      (congrArg Prod.fst (Option.some.inj create)).symm
    subst after
    dsimp only at made ⊢
    rw [inv.fs.tree.linked] at fresh
    rcases inv.fs.tree.make (fillFile_ok image.hello name) with
      ⟨result, _⟩ | ⟨new, fs', _, _, result, tree, _, atNew, _⟩
    · rw [ramfsCreate, result, inv.fs.tree.linked] at made
      exact absurd made fresh
    · rw [ramfsCreate, result] at made ⊢
      rw [tree.linked] at made
      obtain rfl : c = new := by simpa [fresh] using made
      exact ⟨name.take 127, by rw [atNew]; rfl⟩
  | @step k k' writes op event frees before legal step stays ih =>
    obtain ⟨⟨kids, inv⟩, member, name, entry⟩ := ih
    obtain ⟨permitted, noGap⟩ := allowed k op legal
    obtain ⟨_, _, _, run', done⟩ := inv.step permitted
    cases Option.some.inj (step.symm.trans run')
    refine ⟨done.inv, stays, name, ?_⟩
    rw [kernelStep_entry inv permitted noGap (by rw [entry]) member step stays, entry, written, written,
      List.foldl_append]

/-- What reads of a file in order return: its bytes from the offset on. -/
theorem FsInv.read_entry {others : List Nat} {h : Heap} {fs : Ramfs} (inv : FsInv r hello others h fs kids)
    (member : c ∈ kids) {name bytes : List UInt8} (entry : entryOf h.mem (fs.nodes c) = ⟨name, .file, bytes⟩)
    {offset size : Nat} (sizeWord : size < 2 ^ 32) (fits : bytes.length ≤ offset ∨ offset + size < 2 ^ 32) :
    vfsRead h.mem fs (some c) offset size = (min size (bytes.length - offset), (bytes.drop offset).take size) := by
  have kind : kindOf (fs.nodes c) = .file := congrArg Entry.kind entry
  have held : window h.mem (fs.nodes c).data (fs.nodes c).size = bytes := congrArg Entry.bytes entry
  rcases inv.tree.kid c member with dir | file
  · simp [kindOf, dir.flags] at kind
  rcases file.data with ⟨owns, small, null⟩ | ⟨fixed, _⟩
  · have bound : (fs.nodes c).data + (fs.nodes c).size < 2 ^ 32 := by
      by_cases zero : (fs.nodes c).data = 0
      · rw [zero, Nat.zero_add]
        exact small
      · exact Nat.lt_of_le_of_lt (inv.data_bounds member file zero) r.stop_lt
    have content : fileContent h.mem (fs.nodes c) = bytes := by
      unfold fileContent
      by_cases zero : (fs.nodes c).data = 0
      · rw [if_pos zero, ← held, null.mp zero]
        rfl
      · rw [if_neg zero, copyOut_eq_window (by omega), held]
    have node : FileNode fs c c := ⟨file.impl, file.read, by omega, small⟩
    have whole : ReadsExactly h.mem fs c c offset size :=
      (node.readsExactly_iff sizeWord).mpr (by rw [content]; exact fits)
    rw [← content]
    exact whole.1
  · simp [kindOf, file.flags, fixed] at kind

/-- In runs whose writes to the file leave no gap, a read that does not wrap returns what was
written, and so the same in every two runs with the same successful writes. -/
theorem ramfs_contents_written {r' : HeapRegion} {image' : BootImage r'} {c' : Fin 9} {offset size : Nat}
    (run : FileRun r image c (fun k op => op.Allowed k ∧ LeavesNoGap c k op) k writes)
    (run' : FileRun r' image' c' (fun k op => op.Allowed k ∧ LeavesNoGap c' k op) k' writes)
    (sizeWord : size < 2 ^ 32) (fits : (written writes).length ≤ offset ∨ offset + size < 2 ^ 32) :
    vfsRead k.heap.mem k.fs (some c) offset size =
        (min size ((written writes).length - offset), ((written writes).drop offset).take size) ∧
      vfsRead k'.heap.mem k'.fs (some c') offset size = vfsRead k.heap.mem k.fs (some c) offset size := by
  have read {r : HeapRegion} {image : BootImage r} {c : Fin 9} {k : Kernel}
      (run : FileRun r image c (fun k op => op.Allowed k ∧ LeavesNoGap c k op) k writes) :
      vfsRead k.heap.mem k.fs (some c) offset size =
        (min size ((written writes).length - offset), ((written writes).drop offset).take size) := by
    obtain ⟨⟨kids, inv⟩, member, name, entry⟩ := run.entry fun _ _ legal => legal
    rw [inv.fs.tree.linked] at member
    exact inv.fs.read_entry member entry sizeWord fits
  exact ⟨read run, (read run').trans (read run).symm⟩

end

/-- An image with the same static text as `sampleImage`, in memory that is full of ones. -/
def filledImage : BootImage kernelHeap :=
  { sampleImage with
    mem := paste (fun _ => 0xFF) 0xC0105000 helloText
    loaded := window_paste_same _ _ helloText }

/-- The kernel of an image once a file `a` is created. -/
def createdKernel (image : BootImage kernelHeap) : Kernel :=
  { kernelBoot kernelHeap image schedReset blankFs with
    fs := (ramfsCreate (ramfsInit blankFs image.hello) (ascii "a")).1 }

/-- The run that creates `a` and writes one byte to it, at an offset. -/
theorem createdRun (image : BootImage kernelHeap) (ok : Kernel → KernelOp → Prop) (offset : Nat) (byte : UInt8)
    (read : Nat × List UInt8) (legal : ok (createdKernel image) (.fs (.write (some (ascii "a")) offset [byte])))
    (code : (ramfsCreate (ramfsInit blankFs image.hello) (ascii "a")).2 = 0)
    (fresh : 2 ∉ linkedNodes (ramfsInit blankFs image.hello)) (made : 2 ∈ linkedNodes (createdKernel image).fs)
    (found : nodeOf (createdKernel image).fs (some (ascii "a")) = some 2)
    (run : (fsStep (createdKernel image).heap (createdKernel image).fs (.write (some (ascii "a")) offset [byte])).map
      (fun s => (s.2.2.1, decide (2 ∈ linkedNodes s.2.1), vfsRead s.1.mem s.2.1 (some 2) 0 1)) =
        some (.count 1, true, read)) :
    ∃ k, FileRun kernelHeap image 2 ok k [(offset, [byte])] ∧ vfsRead k.heap.mem k.fs (some 2) 0 1 = read := by
  obtain ⟨⟨h', fs', result, frees⟩, write, fields⟩ := Option.map_eq_some_iff.mp run
  obtain ⟨count, rest⟩ := Prod.ext_iff.mp fields
  obtain ⟨stays, bytes⟩ := Prod.ext_iff.mp rest
  dsimp only at count stays bytes
  subst count
  have create : kernelStep (kernelBoot kernelHeap image schedReset blankFs) (.fs (.create (ascii "a"))) =
      some (createdKernel image, some (.create (ascii "a"), .code 0), []) := by
    rw [← code]
    rfl
  have start : FileRun kernelHeap image 2 ok (createdKernel image) [] :=
    .created (.boot schedReset blankFs) create fresh made
  have step := FileRun.step start legal (kernelStep_fs write) (of_decide_eq_true stays)
  rw [writtenTo, if_pos ⟨found, by decide⟩] at step
  exact ⟨_, step, bytes⟩

/-- One byte is written behind a gap of one: reads of the gap show what the memory held
before. -/
theorem ramfs_gap_shows_memory :
    ¬ ∀ (image image' : BootImage kernelHeap) (k k' : Kernel) (writes : List (Nat × List UInt8)),
      FileRun kernelHeap image 2 (fun k op => op.Allowed k) k writes →
      FileRun kernelHeap image' 2 (fun k op => op.Allowed k) k' writes →
      ∀ offset size, size < 2 ^ 32 → offset + size < 2 ^ 32 →
        vfsRead k'.heap.mem k'.fs (some 2) offset size = vfsRead k.heap.mem k.fs (some 2) offset size := by
  intro claimed
  have allowed (image : BootImage kernelHeap) :
      (KernelOp.fs (.write (some (ascii "a")) 1 [0x41])).Allowed (createdKernel image) :=
    ⟨show 1 + 1 < 2 ^ 32 by decide, fun _ _ _ _ => by decide⟩
  obtain ⟨k, run, zero⟩ := createdRun sampleImage (fun k op => op.Allowed k) 1 0x41 (1, [0]) (allowed sampleImage)
    (by decide) (by decide) (by decide) (by decide) (by decide +kernel)
  obtain ⟨k', run', ones⟩ := createdRun filledImage (fun k op => op.Allowed k) 1 0x41 (1, [0xFF]) (allowed filledImage)
    (by decide) (by decide) (by decide) (by decide) (by decide +kernel)
  have same := claimed _ _ k k' _ run run' 0 1 (by decide) (by decide)
  rw [zero, ones] at same
  revert same
  decide

theorem ramfs_contents_written_sample :
    ∃ k k' : Kernel, vfsRead k.heap.mem k.fs (some 2) 0 1 =
        (min 1 ((written [(0, [0x41])]).length - 0), ((written [(0, [0x41])]).drop 0).take 1) ∧
      vfsRead k'.heap.mem k'.fs (some 2) 0 1 = vfsRead k.heap.mem k.fs (some 2) 0 1 := by
  have legal (image : BootImage kernelHeap) :
      (KernelOp.fs (.write (some (ascii "a")) 0 [0x41])).Allowed (createdKernel image) ∧
        LeavesNoGap 2 (createdKernel image) (.fs (.write (some (ascii "a")) 0 [0x41])) :=
    ⟨⟨show 0 + 1 < 2 ^ 32 by decide, fun _ _ _ _ => by decide⟩, fun _ => Or.inl (Nat.zero_le _)⟩
  obtain ⟨k, run, _⟩ := createdRun sampleImage (fun k op => op.Allowed k ∧ LeavesNoGap 2 k op) 0 0x41 (1, [0x41])
    (legal sampleImage) (by decide) (by decide) (by decide) (by decide) (by decide +kernel)
  obtain ⟨k', run', _⟩ := createdRun filledImage (fun k op => op.Allowed k ∧ LeavesNoGap 2 k op) 0 0x41 (1, [0x41])
    (legal filledImage) (by decide) (by decide) (by decide) (by decide) (by decide +kernel)
  exact ⟨k, k', ramfs_contents_written run run' (by decide) (Or.inr (by decide))⟩

end LearningOS
