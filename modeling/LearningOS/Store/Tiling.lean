import Mathlib.Data.List.Chain
import Mathlib.Data.List.Basic

namespace Tiling

/-- One block of a region: `hdr` bytes of header at `addr`, then `size` bytes
of payload. The header width is a parameter of everything below. -/
structure Block where
  addr : Nat
  size : Nat
  free : Bool
deriving DecidableEq, Repr

/-- Consecutive blocks filling the addresses from `s` to `e` without a gap. -/
def Tiles (hdr : Nat) : Nat → Nat → List Block → Prop
  | s, e, [] => s = e
  | s, e, b :: bs => b.addr = s ∧ Tiles hdr (s + hdr + b.size) e bs

/-- No two neighbours are both free. -/
def Canonical (bs : List Block) : Prop := bs.IsChain fun b c => ¬(b.free = true ∧ c.free = true)

/-- The blocks in use. -/
def live (bs : List Block) : List Block := bs.filter fun b => !b.free

/-- One left-to-right pass that merges every free block into its free left
neighbour, with `b` the block the pass currently stands on. -/
def mergeFrom (hdr : Nat) : Block → List Block → List Block
  | b, [] => [b]
  | b, c :: rest =>
    if b.free && c.free then mergeFrom hdr { b with size := b.size + hdr + c.size } rest
    else b :: mergeFrom hdr c rest

def mergeFree (hdr : Nat) : List Block → List Block
  | [] => []
  | b :: bs => mergeFrom hdr b bs

@[simp] theorem mem_live {bs : List Block} {b : Block} : b ∈ live bs ↔ b ∈ bs ∧ b.free = false := by
  simp [live]

section Tiles
variable {hdr s e : Nat} {bs : List Block}

theorem tiles_append {xs ys : List Block} :
    Tiles hdr s e (xs ++ ys) ↔ ∃ mid, Tiles hdr s mid xs ∧ Tiles hdr mid e ys := by
  induction xs generalizing s with
  | nil => simp [Tiles]
  | cons b bs ih => simp only [List.cons_append, Tiles, ih, and_assoc, exists_and_left]

theorem Tiles.le (tiles : Tiles hdr s e bs) : s ≤ e := by
  induction bs generalizing s with
  | nil => exact le_of_eq tiles
  | cons b bs ih =>
    have rest := ih tiles.2
    omega

theorem Tiles.bounds (tiles : Tiles hdr s e bs) {b : Block} (member : b ∈ bs) :
    s ≤ b.addr ∧ b.addr + hdr + b.size ≤ e := by
  induction bs generalizing s with
  | nil => simp at member
  | cons c cs ih =>
    obtain ⟨start, rest⟩ := tiles
    rcases List.mem_cons.mp member with rfl | later
    · have bound := rest.le
      omega
    · have bound := ih rest later
      omega

/-- Distinct blocks of a tiling occupy disjoint ranges, in list order. -/
theorem Tiles.pairwise (tiles : Tiles hdr s e bs) :
    bs.Pairwise fun b c => b.addr + hdr + b.size ≤ c.addr := by
  induction bs generalizing s with
  | nil => exact .nil
  | cons b bs ih =>
    obtain ⟨start, rest⟩ := tiles
    refine .cons (fun c member => ?_) (ih rest)
    have bound := rest.bounds member
    omega

theorem Tiles.apart (tiles : Tiles hdr s e bs) {b c : Block} (atB : b ∈ bs) (atC : c ∈ bs) :
    b = c ∨ b.addr + hdr + b.size ≤ c.addr ∨ c.addr + hdr + c.size ≤ b.addr := by
  induction bs generalizing s with
  | nil => simp at atB
  | cons d ds ih =>
    obtain ⟨start, rest⟩ := tiles
    rcases List.mem_cons.mp atB with rfl | laterB <;> rcases List.mem_cons.mp atC with rfl | laterC
    · exact Or.inl rfl
    · have bound := rest.bounds laterC
      omega
    · have bound := rest.bounds laterB
      omega
    · exact ih rest laterB laterC

theorem Tiles.links (tiles : Tiles hdr s e bs) : bs.IsChain fun b c => b.addr + hdr + b.size = c.addr := by
  induction bs generalizing s with
  | nil => exact List.isChain_nil
  | cons b bs ih =>
    obtain ⟨start, rest⟩ := tiles
    refine List.isChain_cons.mpr ⟨?_, ih rest⟩
    intro c head
    cases bs with
    | nil => simp at head
    | cons d ds =>
      cases Option.some.inj head
      rw [start]
      exact rest.1.symm

theorem Tiles.getLast (tiles : Tiles hdr s e bs) (nonempty : bs ≠ []) :
    ∃ b, bs.getLast? = some b ∧ b.addr + hdr + b.size = e := by
  induction bs generalizing s with
  | nil => exact absurd rfl nonempty
  | cons b bs ih =>
    obtain ⟨start, rest⟩ := tiles
    cases bs with
    | nil => exact ⟨b, rfl, by rw [start]; exact rest⟩
    | cons c cs =>
      obtain ⟨d, last, stop⟩ := ih rest (by simp)
      exact ⟨d, by rw [List.getLast?_cons_cons]; exact last, stop⟩

theorem Tiles.eq_of_addr (positive : 0 < hdr) (tiles : Tiles hdr s e bs) {b c : Block}
    (atB : b ∈ bs) (atC : c ∈ bs) (same : b.addr = c.addr) : b = c := by
  rcases tiles.apart atB atC with equal | before | after
  · exact equal
  · omega
  · omega

theorem Tiles.length_le (tiles : Tiles hdr s e bs) : s + hdr * bs.length ≤ e := by
  induction bs generalizing s with
  | nil => simpa using le_of_eq tiles
  | cons b bs ih =>
    have rest := ih tiles.2
    rw [List.length_cons, Nat.mul_succ]
    omega

end Tiles

section Merge
variable {hdr s e : Nat}

theorem mergeFrom_tiles {b : Block} {bs : List Block} (tiles : Tiles hdr s e (b :: bs)) :
    Tiles hdr s e (mergeFrom hdr b bs) := by
  induction bs generalizing s b with
  | nil => exact tiles
  | cons c cs ih =>
    obtain ⟨start, next, rest⟩ := tiles
    unfold mergeFrom
    split
    · refine ih ⟨start, ?_⟩
      have joined : s + hdr + (b.size + hdr + c.size) = s + hdr + b.size + hdr + c.size := by omega
      rwa [joined]
    · exact ⟨start, ih ⟨next, rest⟩⟩

theorem mergeFree_tiles {bs : List Block} (tiles : Tiles hdr s e bs) : Tiles hdr s e (mergeFree hdr bs) := by
  cases bs with
  | nil => exact tiles
  | cons b bs => exact mergeFrom_tiles tiles

/-- The pass starts its output with the block it stands on, possibly grown. -/
theorem mergeFrom_head (b : Block) (bs : List Block) :
    ∃ n rest, mergeFrom hdr b bs = ⟨b.addr, n, b.free⟩ :: rest ∧ b.size ≤ n := by
  induction bs generalizing b with
  | nil => exact ⟨b.size, [], rfl, le_rfl⟩
  | cons c cs ih =>
    unfold mergeFrom
    split
    · obtain ⟨n, rest, equal, bound⟩ := ih { b with size := b.size + hdr + c.size }
      exact ⟨n, rest, equal, by simp only at bound; omega⟩
    · exact ⟨b.size, _, rfl, le_rfl⟩

/-- Merging only drops headers: every remaining one was there before. -/
theorem mergeFrom_addr {b d : Block} {bs : List Block} (member : d ∈ mergeFrom hdr b bs) :
    ∃ c ∈ b :: bs, c.addr = d.addr := by
  induction bs generalizing b with
  | nil => exact ⟨d, member, rfl⟩
  | cons c cs ih =>
    unfold mergeFrom at member
    split at member
    · obtain ⟨f, inTail, same⟩ := ih member
      rcases List.mem_cons.mp inTail with rfl | later
      · exact ⟨b, by simp, same⟩
      · exact ⟨f, by simp [later], same⟩
    · rcases List.mem_cons.mp member with rfl | later
      · exact ⟨d, by simp, rfl⟩
      · obtain ⟨f, inTail, same⟩ := ih later
        exact ⟨f, List.mem_cons_of_mem _ inTail, same⟩

theorem mergeFree_addr {d : Block} {bs : List Block} (member : d ∈ mergeFree hdr bs) :
    ∃ c ∈ bs, c.addr = d.addr := by
  cases bs with
  | nil => simp [mergeFree] at member
  | cons b bs => exact mergeFrom_addr member

/-- Merging never splits a free range: each free block lies in a free block of
the result. -/
theorem mergeFrom_covers {b d : Block} {bs : List Block} (tiles : Tiles hdr s e (b :: bs))
    (member : d ∈ b :: bs) (free : d.free = true) :
    ∃ c ∈ mergeFrom hdr b bs, c.free = true ∧ c.addr ≤ d.addr ∧
      d.addr + hdr + d.size ≤ c.addr + hdr + c.size := by
  induction bs generalizing s b d with
  | nil => exact ⟨d, member, free, le_rfl, le_rfl⟩
  | cons f fs ih =>
    obtain ⟨start, next, rest⟩ := tiles
    have joined : s + hdr + (b.size + hdr + f.size) = s + hdr + b.size + hdr + f.size := by omega
    unfold mergeFrom
    split
    · rename_i both
      simp only [Bool.and_eq_true] at both
      have tilesJoined : Tiles hdr s e ({ b with size := b.size + hdr + f.size } :: fs) :=
        ⟨start, by rw [joined]; exact rest⟩
      by_cases later : d ∈ fs
      · exact ih tilesJoined (List.mem_cons_of_mem _ later) free
      · obtain ⟨c, inside, freeC, lower, upper⟩ := ih tilesJoined (List.mem_cons_self ..) both.1
        simp only [List.mem_cons, later, or_false] at member
        refine ⟨c, inside, freeC, ?_, ?_⟩
        all_goals rcases member with rfl | rfl <;> simp only at lower upper <;> omega
    · rcases List.mem_cons.mp member with rfl | later
      · exact ⟨d, List.mem_cons_self .., free, le_rfl, le_rfl⟩
      · obtain ⟨c, inside, found⟩ := ih ⟨next, rest⟩ later free
        exact ⟨c, List.mem_cons_of_mem _ inside, found⟩

theorem mergeFrom_canonical (b : Block) (bs : List Block) : Canonical (mergeFrom hdr b bs) := by
  induction bs generalizing b with
  | nil => exact List.isChain_singleton b
  | cons c cs ih =>
    unfold mergeFrom
    split
    · exact ih _
    · rename_i apart
      refine List.isChain_cons.mpr ⟨?_, ih c⟩
      obtain ⟨n, rest, equal, _⟩ := @mergeFrom_head hdr c cs
      rw [equal]
      simpa using apart

theorem mergeFree_canonical (bs : List Block) : Canonical (mergeFree hdr bs) := by
  cases bs with
  | nil => exact List.isChain_nil
  | cons b bs => exact mergeFrom_canonical b bs

theorem live_mergeFrom (b : Block) (bs : List Block) : live (mergeFrom hdr b bs) = live (b :: bs) := by
  induction bs generalizing b with
  | nil => rfl
  | cons c cs ih =>
    unfold mergeFrom
    split
    · rename_i both
      simp only [Bool.and_eq_true] at both
      rw [ih]
      simp [live, both.1, both.2]
    · have tail := ih c
      simp only [live, List.filter_cons] at tail ⊢
      rw [tail]

@[simp] theorem live_mergeFree (bs : List Block) : live (mergeFree hdr bs) = live bs := by
  cases bs with
  | nil => rfl
  | cons b bs => exact live_mergeFrom b bs

end Merge

section Unique
variable {hdr s e : Nat}

theorem Canonical.tail {b : Block} {bs : List Block} (canonical : Canonical (b :: bs)) : Canonical bs :=
  (List.isChain_cons.mp canonical).2

theorem Canonical.next_live {b c : Block} {bs : List Block} (canonical : Canonical (b :: c :: bs))
    (free : b.free = true) : c.free = false := by
  have apart := (List.isChain_cons.mp canonical).1 c rfl
  simpa [free] using apart

/-- The gap a leading free block covers ends no later than the first used
block of any other canonical tiling with the same used blocks. -/
theorem gap_le {b c : Block} {bs cs : List Block} (free : b.free = true) (freeC : c.free = true)
    (tiles : Tiles hdr s e (b :: bs)) (tilesC : Tiles hdr s e (c :: cs)) (canonicalC : Canonical (c :: cs))
    (same : ∀ d, d ∈ live (c :: cs) → d ∈ live (b :: bs)) : b.size ≤ c.size := by
  obtain ⟨start, rest⟩ := tiles
  obtain ⟨startC, restC⟩ := tilesC
  cases cs with
  | nil =>
    have stop : s + hdr + c.size = e := restC
    have bound := rest.le
    omega
  | cons d ds =>
    have used := canonicalC.next_live freeC
    have inOther := same d (by simp [used])
    simp only [mem_live, List.mem_cons] at inOther
    rcases inOther.1 with equal | later
    · rw [equal, free] at used
      simp at used
    · have bound := rest.bounds later
      have atD : d.addr = s + hdr + c.size := restC.1
      omega

theorem live_tail_iff (positive : 0 < hdr) {b : Block} {bs cs : List Block}
    (tiles : Tiles hdr s e (b :: bs)) (tilesC : Tiles hdr s e (b :: cs))
    (same : ∀ d, d ∈ live (b :: bs) ↔ d ∈ live (b :: cs)) (d : Block) : d ∈ live bs ↔ d ∈ live cs := by
  have distinct {xs : List Block} (tilesX : Tiles hdr s e (b :: xs)) (member : d ∈ live xs) : d ≠ b := by
    rintro rfl
    have bound := tilesX.2.bounds (mem_live.mp member).1
    have atB := tilesX.1
    omega
  constructor
  · intro member
    have other := (same d).mp (mem_live.mpr ⟨List.mem_cons_of_mem _ (mem_live.mp member).1, (mem_live.mp member).2⟩)
    simp only [mem_live, List.mem_cons, distinct tiles member, false_or] at other
    exact mem_live.mpr other
  · intro member
    have other := (same d).mpr (mem_live.mpr ⟨List.mem_cons_of_mem _ (mem_live.mp member).1, (mem_live.mp member).2⟩)
    simp only [mem_live, List.mem_cons, distinct tilesC member, false_or] at other
    exact mem_live.mpr other

theorem head_eq (positive : 0 < hdr) {b c : Block} {bs cs : List Block} (used : b.free = false)
    (tiles : Tiles hdr s e (b :: bs)) (tilesC : Tiles hdr s e (c :: cs))
    (same : ∀ d, d ∈ live (b :: bs) → d ∈ live (c :: cs)) : b = c :=
  tilesC.eq_of_addr positive (mem_live.mp (same b (by simp [used]))).1 (List.mem_cons_self ..)
    (tiles.1.trans tilesC.1.symm)

/-- A canonical tiling is determined by its used blocks. -/
theorem canonical_unique (positive : 0 < hdr) {bs cs : List Block} (tiles : Tiles hdr s e bs)
    (tilesC : Tiles hdr s e cs) (canonical : Canonical bs) (canonicalC : Canonical cs)
    (same : ∀ d, d ∈ live bs ↔ d ∈ live cs) : bs = cs := by
  induction bs generalizing s cs with
  | nil =>
    cases cs with
    | nil => rfl
    | cons c cs =>
      have stop : s = e := tiles
      have bound := tilesC.2.le
      omega
  | cons b bs ih =>
    cases cs with
    | nil =>
      have stop : s = e := tilesC
      have bound := tiles.2.le
      omega
    | cons c cs =>
      have heads : b = c := by
        cases usedB : b.free with
        | false => exact head_eq positive usedB tiles tilesC fun d => (same d).mp
        | true =>
          cases usedC : c.free with
          | false => exact (head_eq positive usedC tilesC tiles fun d => (same d).mpr).symm
          | true =>
            have lower := gap_le usedB usedC tiles tilesC canonicalC fun d => (same d).mpr
            have upper := gap_le usedC usedB tilesC tiles canonical fun d => (same d).mp
            have addr := tiles.1.trans tilesC.1.symm
            cases b
            cases c
            simp_all
            omega
      subst c
      rw [ih tiles.2 tilesC.2 canonical.tail canonicalC.tail (live_tail_iff positive tiles tilesC same)]

end Unique

end Tiling
