import LearningOS.Store.Copy

namespace ByteStore

/-- Bytes to be put at an address. -/
structure Patch where
  start : Nat
  bytes : List UInt8

namespace Patch

/-- The addresses of a patch. -/
def Covers (b : Patch) (x : Nat) : Prop := b.start ≤ x ∧ x < b.start + b.bytes.length

/-- No address belongs to both patches. -/
def Apart (a b : Patch) : Prop := ∀ x, a.Covers x → ¬ b.Covers x

end Patch

/-- The store with the patches, one put behind another. -/
def pastePatches (m : Bytes) (bs : List Patch) : Bytes := bs.foldl (fun m b => paste m b.start b.bytes) m

variable {m : Bytes} {a b : Patch} {bs : List Patch}

theorem pastePatches_cons (m : Bytes) (b : Patch) (bs : List Patch) :
    pastePatches m (b :: bs) = pastePatches (paste m b.start b.bytes) bs := rfl

/-- Patches leave the bytes at the addresses of none. -/
theorem pastePatches_outside {x : Nat} (outside : ∀ b ∈ bs, ¬ b.Covers x) : pastePatches m bs x = m x := by
  induction bs generalizing m with
  | nil => rfl
  | cons b bs ih =>
    rw [pastePatches_cons, ih fun c member => outside c (List.mem_cons_of_mem b member)]
    have first := outside b List.mem_cons_self
    refine paste_outside ?_
    unfold Patch.Covers at first
    omega

/-- Each of pairwise disjoint patches is in the store in the end. -/
theorem pastePatches_inside {i : Nat} {v : UInt8} (apart : bs.Pairwise Patch.Apart) (member : b ∈ bs)
    (at_i : b.bytes[i]? = some v) : pastePatches m bs (b.start + i) = v := by
  have below := (List.getElem?_eq_some_iff.mp at_i).1
  have covers : b.Covers (b.start + i) := ⟨by omega, by omega⟩
  induction bs generalizing m with
  | nil => cases member
  | cons c bs ih =>
    obtain ⟨first, rest⟩ := List.pairwise_cons.mp apart
    rw [pastePatches_cons]
    rcases List.mem_cons.mp member with rfl | later
    · rw [pastePatches_outside fun c later => first c later _ covers]
      exact paste_inside at_i
    · exact ih rest later

end ByteStore
