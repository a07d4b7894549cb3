import LearningOS.Store.Tiling

namespace Tiling

/-- The blocks that replace a free block of which `n` payload bytes are taken:
the rest is split off when it is larger than `slack`. -/
def carve (hdr slack n : Nat) (b : Block) : List Block :=
  if slack < b.size - n then
    [⟨b.addr, n, false⟩, ⟨b.addr + hdr + n, b.size - n - hdr, true⟩]
  else [⟨b.addr, b.size, false⟩]

/-- First fit. -/
def take (hdr slack n : Nat) : List Block → Option (Nat × List Block)
  | [] => none
  | b :: bs =>
    if b.free && decide (n ≤ b.size) then some (b.addr, carve hdr slack n b ++ bs)
    else (take hdr slack n bs).map fun r => (r.1, b :: r.2)

def markFree (a : Nat) (bs : List Block) : List Block :=
  bs.map fun b => if b.addr = a then { b with free := true } else b

/-- Give a block back and merge. -/
def giveBack (hdr a : Nat) (bs : List Block) : List Block := mergeFree hdr (markFree a bs)

section Take
variable {hdr slack n s e a : Nat} {bs bs' : List Block}

/-- The block a free one becomes when `n` bytes of it are taken. -/
def taken (slack n : Nat) (b : Block) : Block :=
  ⟨b.addr, if slack < b.size - n then n else b.size, false⟩

theorem take_split (run : take hdr slack n bs = some (a, bs')) :
    ∃ pre b post, bs = pre ++ b :: post ∧ b.free = true ∧ n ≤ b.size ∧ a = b.addr ∧
      bs' = pre ++ (carve hdr slack n b ++ post) ∧ ∀ c ∈ pre, ¬(c.free = true ∧ n ≤ c.size) := by
  induction bs generalizing bs' with
  | nil => simp [take] at run
  | cons b bs ih =>
    unfold take at run
    split at run
    · rename_i fits
      simp only [Bool.and_eq_true, decide_eq_true_eq] at fits
      cases Option.some.inj run
      exact ⟨[], b, bs, rfl, fits.1, fits.2, rfl, rfl, by simp⟩
    · rename_i misfit
      simp only [Bool.and_eq_true, decide_eq_true_eq] at misfit
      obtain ⟨⟨addr, rest⟩, inner, equal⟩ := Option.map_eq_some_iff.mp run
      cases equal
      obtain ⟨pre, c, post, split, free, room, atA, result, before⟩ := ih inner
      refine ⟨b :: pre, c, post, by rw [split]; rfl, free, room, atA, by simp [result], ?_⟩
      intro d member
      rcases List.mem_cons.mp member with rfl | later
      · exact misfit
      · exact before d later

theorem take_append {pre post : List Block} {b : Block} (before : ∀ c ∈ pre, ¬(c.free = true ∧ n ≤ c.size))
    (free : b.free = true) (fits : n ≤ b.size) :
    take hdr slack n (pre ++ b :: post) = some (b.addr, pre ++ (carve hdr slack n b ++ post)) := by
  induction pre with
  | nil => simp [take, free, fits]
  | cons c cs ih =>
    have misfit := before c (by simp)
    rw [List.cons_append, take, if_neg (by simpa using misfit), ih fun d later => before d (by simp [later])]
    rfl

theorem take_eq_none : take hdr slack n bs = none ↔ ∀ b ∈ bs, ¬(b.free = true ∧ n ≤ b.size) := by
  induction bs with
  | nil => simp [take]
  | cons b bs ih =>
    unfold take
    split
    · rename_i fits
      simp only [Bool.and_eq_true, decide_eq_true_eq] at fits
      simp [fits]
    · rename_i misfit
      simp only [Bool.and_eq_true, decide_eq_true_eq] at misfit
      simp only [Option.map_eq_none_iff, ih, List.forall_mem_cons, misfit, not_false_eq_true, true_and]

theorem carve_tiles (room : hdr ≤ slack) {b : Block} (fits : n ≤ b.size) {post : List Block}
    (tiles : Tiles hdr s e (b :: post)) : Tiles hdr s e (carve hdr slack n b ++ post) := by
  obtain ⟨start, rest⟩ := tiles
  unfold carve
  split
  · refine ⟨start, by simp only; omega, ?_⟩
    have joined : s + hdr + n + hdr + (b.size - n - hdr) = s + hdr + b.size := by omega
    rw [joined]
    exact rest
  · exact ⟨start, rest⟩

theorem take_tiles (room : hdr ≤ slack) (tiles : Tiles hdr s e bs)
    (run : take hdr slack n bs = some (a, bs')) : Tiles hdr s e bs' := by
  obtain ⟨pre, b, post, rfl, _, fits, _, rfl, _⟩ := take_split run
  obtain ⟨mid, left, right⟩ := tiles_append.mp tiles
  exact tiles_append.mpr ⟨mid, left, carve_tiles room fits right⟩

theorem carve_canonical {b : Block} {post : List Block} (free : b.free = true)
    (canonical : Canonical (b :: post)) : Canonical (carve hdr slack n b ++ post) := by
  obtain ⟨apart, rest⟩ := List.isChain_cons.mp canonical
  unfold carve
  split
  · refine List.isChain_cons.mpr ⟨by simp, List.isChain_cons.mpr ⟨?_, rest⟩⟩
    intro c head
    simpa [free] using apart c head
  · exact List.isChain_cons.mpr ⟨by simp, rest⟩

theorem take_canonical (canonical : Canonical bs) (run : take hdr slack n bs = some (a, bs')) :
    Canonical bs' := by
  obtain ⟨pre, b, post, rfl, free, _, _, rfl, _⟩ := take_split run
  obtain ⟨left, right, _⟩ := List.isChain_append.mp canonical
  refine List.isChain_append.mpr ⟨left, carve_canonical free right, ?_⟩
  intro c _ d head
  unfold carve at head
  split at head <;> simp_all

/-- Taking a block adds exactly that block to the used ones. -/
theorem live_take (tiles : Tiles hdr s e bs) (run : take hdr slack n bs = some (a, bs')) :
    ∃ b ∈ bs, b.free = true ∧ n ≤ b.size ∧ a = b.addr ∧ taken slack n b ∈ bs' ∧
      ∀ d, d ∈ live bs' ↔ d = taken slack n b ∨ d ∈ live bs := by
  obtain ⟨pre, b, post, rfl, free, fits, atA, rfl, _⟩ := take_split run
  refine ⟨b, by simp, free, fits, atA, ?_, ?_⟩
  · unfold carve taken
    split <;> simp
  · intro d
    have inCarve : d ∈ live (carve hdr slack n b) ↔ d = taken slack n b := by
      unfold carve taken
      split
      · simp [live]
      · simp [live]
    simp only [live, List.filter_append, List.mem_append, List.filter_cons, free] at inCarve ⊢
    rw [inCarve]
    simp only [Bool.not_true, Bool.false_eq_true, if_false]
    tauto

/-- A property of header addresses survives if it also holds of the header a
split would create. -/
theorem take_addr {P : Nat → Prop} (old : ∀ b ∈ bs, P b.addr)
    (new : ∀ b ∈ bs, slack < b.size - n → P (b.addr + hdr + n))
    (run : take hdr slack n bs = some (a, bs')) : ∀ b ∈ bs', P b.addr := by
  obtain ⟨pre, b, post, rfl, _, _, _, rfl, _⟩ := take_split run
  intro d member
  simp only [List.mem_append] at member
  rcases member with before | carved | after
  · exact old d (by simp [before])
  · unfold carve at carved
    split at carved
    · rename_i large
      simp only [List.mem_cons, List.not_mem_nil, or_false] at carved
      rcases carved with rfl | rfl
      · exact old b (by simp)
      · exact new b (by simp) large
    · simp only [List.mem_cons, List.not_mem_nil, or_false] at carved
      subst d
      exact old b (by simp)
  · exact old d (by simp [after])

end Take

section GiveBack
variable {hdr s e a : Nat} {bs : List Block}

theorem markFree_tiles (tiles : Tiles hdr s e bs) : Tiles hdr s e (markFree a bs) := by
  induction bs generalizing s with
  | nil => exact tiles
  | cons b bs ih =>
    obtain ⟨start, rest⟩ := tiles
    have tail := ih rest
    unfold markFree at tail ⊢
    rw [List.map_cons]
    split
    · exact ⟨start, tail⟩
    · exact ⟨start, tail⟩

theorem giveBack_tiles (tiles : Tiles hdr s e bs) : Tiles hdr s e (giveBack hdr a bs) :=
  mergeFree_tiles (markFree_tiles tiles)

theorem giveBack_canonical : Canonical (giveBack hdr a bs) := mergeFree_canonical _

theorem giveBack_addr {d : Block} (member : d ∈ giveBack hdr a bs) : ∃ c ∈ bs, c.addr = d.addr := by
  obtain ⟨c, inMarked, same⟩ := mergeFree_addr member
  obtain ⟨b, inBs, marked⟩ := List.mem_map.mp inMarked
  refine ⟨b, inBs, ?_⟩
  rw [← same, ← marked]
  split <;> rfl

theorem live_markFree {d : Block} : d ∈ live (markFree a bs) ↔ d ∈ live bs ∧ d.addr ≠ a := by
  simp only [mem_live, markFree, List.mem_map]
  constructor
  · rintro ⟨⟨b, member, equal⟩, used⟩
    split at equal
    · rw [← equal] at used
      simp at used
    · rename_i differ
      subst d
      exact ⟨⟨member, used⟩, differ⟩
  · rintro ⟨⟨member, used⟩, differ⟩
    exact ⟨⟨d, member, if_neg differ⟩, used⟩

theorem giveBack_covers {d : Block} (tiles : Tiles hdr s e bs) (member : d ∈ bs) (free : d.free = true) :
    ∃ c ∈ giveBack hdr a bs, c.free = true ∧ c.addr ≤ d.addr ∧
      d.addr + hdr + d.size ≤ c.addr + hdr + c.size := by
  have marked : d ∈ markFree a bs := by
    refine List.mem_map.mpr ⟨d, member, ?_⟩
    split
    · rw [← free]
    · rfl
  have tiled := markFree_tiles (a := a) tiles
  unfold giveBack
  cases shape : markFree a bs with
  | nil => simp [shape] at marked
  | cons c cs =>
    rw [shape] at marked tiled
    exact mergeFrom_covers tiled marked free

/-- Giving a block back removes exactly that block from the used ones. -/
theorem live_giveBack {d : Block} : d ∈ live (giveBack hdr a bs) ↔ d ∈ live bs ∧ d.addr ≠ a := by
  unfold giveBack
  rw [live_mergeFree, live_markFree]

end GiveBack

end Tiling
