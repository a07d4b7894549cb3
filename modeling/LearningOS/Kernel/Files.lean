import LearningOS.Kernel.Ownership

namespace LearningOS
open ByteStore Tiling

/-- The bytes of a write are those of a range of memory, inside the heap or apart from it. -/
def FsOp.InMemory (r : HeapRegion) (m : Bytes) : FsOp → Prop
  | .write _ _ buffer => ∃ src, src + buffer.length ≤ 2 ^ 32 ∧ window m src buffer.length = buffer ∧
      (r.start ≤ src ∧ src + buffer.length ≤ r.stop ∨ src + buffer.length ≤ r.start ∨ r.stop ≤ src)
  | _ => True

/-- The calls the file system is specified for, with a buffer the machine can have; the
other clients of the kernel keep their promises. -/
def InFsDomain (r : HeapRegion) (k : Kernel) : KernelOp → Prop
  | .fs op => op.InDomain (listing k.heap.mem k.fs) ∧ op.InMemory r k.heap.mem
  | op => op.Allowed k

theorem FsOp.InDomain.noWrap {l : Listing} {op : FsOp} (domain : op.InDomain l) : op.NoWrap := by
  cases op with
  | write node offset buffer => exact domain.1
  | _ => exact trivial

/-- A file is no longer than a block, so that a buffer of at most half the address space, or one
that the heap is no part of, does not reach the sizes that `kmalloc` rounds to zero. -/
theorem FsInv.fits {r : HeapRegion} {hello : Nat} {others : List Nat} {h : Heap} {fs : Ramfs} {kids : List (Fin 9)}
    {op : FsOp} (inv : FsInv r hello others h fs kids) (half : r.size ≤ 2 ^ 31) (domain : op.InDomain (listing h.mem fs))
    (memory : op.InMemory r h.mem) : op.Fits (listing h.mem fs) := by
  cases op with
  | write node offset buffer =>
    cases node with
    | none => exact trivial
    | some name =>
      intro e found kind grows
      obtain ⟨src, space, _, place⟩ := memory
      have start := domain.2 name rfl e found
      have stop : r.stop = r.start + r.size := rfl
      have inside := r.stop_lt
      have short : e.bytes.length + 12 ≤ r.size := by
        have large := r.large
        rcases inv.lookup name with ⟨_, view⟩ | ⟨pre, c, post, rfl, _, _, _, view⟩
        · rw [view] at found
          simp at found
        · cases Option.some.inj (view.symm.trans found)
          have member : c ∈ pre ++ c :: post := by simp
          rw [show (entryOf h.mem (fs.nodes c)).bytes.length = (fs.nodes c).size from window_length _ _ _]
          rcases inv.tree.kid c member with dir | file
          · rw [dir.size]
            omega
          · rcases file.data with ⟨owns, _, null⟩ | ⟨static, _⟩
            · by_cases data : (fs.nodes c).data = 0
              · rw [null.mp data]
                omega
              · have owner := dataOwner_eq_some.mpr ⟨owns, data, rfl⟩
                have bounds := inv.held.bounds (FsInv.owner_mem member owner)
                have room := inv.room c member _ owner
                omega
            · simp [entryOf, kindOf, file.flags, static] at kind
      omega
  | _ => exact trivial

theorem InFsDomain.allowed {r : HeapRegion} {hello : Nat} {k : Kernel} {kids : List (Fin 9)} {op : KernelOp}
    (domain : InFsDomain r k op) (half : r.size ≤ 2 ^ 31) (inv : KernelInv r hello k kids) : op.Allowed k := by
  cases op with
  | fs call => exact ⟨FsOp.InDomain.noWrap domain.1, inv.fs.fits half domain.1 domain.2⟩
  | _ => exact domain

end LearningOS
