import LearningOS.Store.FirstFit
import Mathlib.Data.List.Range

namespace Runs

/-- Some indices in a row that have a property. -/
def RunAt (p : Nat → Prop) (a n : Nat) : Prop := ∀ i, i < n → p (a + i)

/-- A range of indices with a property that cannot be extended. -/
structure MaxRun (p : Nat → Prop) (a z : Nat) : Prop where
  nonempty : a < z
  inside : ∀ x, a ≤ x → x < z → p x
  before : ∀ x, x + 1 = a → ¬ p x
  behind : ¬ p z

variable {p q : Nat → Prop} {a b n k x y z : Nat}

theorem RunAt.sub (run : RunAt p a n) (lower : a ≤ b) (upper : b + k ≤ a + n) : RunAt p b k := by
  intro i less
  have holds := run (b + i - a) (by omega)
  rwa [show a + (b + i - a) = b + i by omega] at holds

theorem RunAt.snoc (run : RunAt p a n) (next : p (a + n)) : RunAt p a (n + 1) := by
  intro i less
  rcases Nat.lt_succ_iff_lt_or_eq.mp less with earlier | rfl
  · exact run i earlier
  · exact next

/-- Ranges that cannot be extended and share an index are one. -/
theorem MaxRun.eq_of_mem (left : MaxRun p a z) (right : MaxRun p b y) (inLeft : a ≤ x ∧ x < z)
    (inRight : b ≤ x ∧ x < y) : a = b ∧ z = y := by
  constructor
  · rcases Nat.lt_trichotomy a b with less | same | more
    · exact absurd (left.inside (b - 1) (by omega) (by omega)) (right.before _ (by omega))
    · exact same
    · exact absurd (right.inside (a - 1) (by omega) (by omega)) (left.before _ (by omega))
  · rcases Nat.lt_trichotomy z y with less | same | more
    · exact absurd (right.inside z (by omega) less) left.behind
    · exact same
    · exact absurd (left.inside y (by omega) more) right.behind

/-- What a scan of the first `n` indices knows: the longest run so far, and the run
that the next index would extend. -/
structure Longest (p : Nat → Prop) (n best current : Nat) : Prop where
  le : current ≤ n
  run : RunAt p (n - current) current
  last : ∀ a k, a + k = n → RunAt p a k → k ≤ current
  attained : ∃ a, a + best ≤ n ∧ RunAt p a best
  bound : ∀ a k, a + k ≤ n → RunAt p a k → k ≤ best

namespace Longest
variable {best current : Nat}

theorem zero (p : Nat → Prop) : Longest p 0 0 0 := by
  refine ⟨le_rfl, fun i less => absurd less (Nat.not_lt_zero i), fun a k stop _ => by omega,
    ⟨0, le_rfl, fun i less => absurd less (Nat.not_lt_zero i)⟩, fun a k stop _ => by omega⟩

theorem miss (scan : Longest p n best current) (fails : ¬ p n) : Longest p (n + 1) best 0 := by
  have last (a k : Nat) (stop : a + k = n + 1) (run : RunAt p a k) : k ≤ 0 := by
    by_contra some
    have holds := run (k - 1) (by omega)
    rw [show a + (k - 1) = n by omega] at holds
    exact fails holds
  refine ⟨Nat.zero_le _, fun i less => absurd less (Nat.not_lt_zero i), last, ?_, fun a k stop run => ?_⟩
  · obtain ⟨a, stop, run⟩ := scan.attained
    exact ⟨a, by omega, run⟩
  · rcases Nat.lt_succ_iff_lt_or_eq.mp (Nat.lt_succ_of_le stop) with inside | ends
    · exact scan.bound a k (by omega) run
    · exact (last a k ends run).trans (Nat.zero_le best)

theorem hit (scan : Longest p n best current) (holds : p n) :
    Longest p (n + 1) (max best (current + 1)) (current + 1) := by
  have le := scan.le
  have grown : RunAt p (n - current) (current + 1) := scan.run.snoc (by rwa [Nat.sub_add_cancel le])
  have last (a k : Nat) (stop : a + k = n + 1) (run : RunAt p a k) : k ≤ current + 1 := by
    rcases k with _ | k
    · omega
    · have shorter := scan.last a k (by omega) (run.sub le_rfl (by omega))
      omega
  refine ⟨by omega, by rwa [Nat.add_sub_add_right], last, ?_, fun a k stop run => ?_⟩
  · obtain ⟨a, stop, run⟩ := scan.attained
    rcases Nat.le_total best (current + 1) with less | more
    · rw [Nat.max_eq_right less]
      exact ⟨n - current, by omega, grown⟩
    · rw [Nat.max_eq_left more]
      exact ⟨a, by omega, run⟩
  · rcases Nat.lt_succ_iff_lt_or_eq.mp (Nat.lt_succ_of_le stop) with inside | ends
    · exact (scan.bound a k (by omega) run).trans (Nat.le_max_left ..)
    · exact (last a k ends run).trans (Nat.le_max_right ..)

/-- The longest run decides which lengths there are runs of. -/
theorem le_iff (scan : Longest p n best current) : k ≤ best ↔ ∃ a, a + k ≤ n ∧ RunAt p a k := by
  constructor
  · intro le
    obtain ⟨a, stop, run⟩ := scan.attained
    exact ⟨a, by omega, run.sub le_rfl (by omega)⟩
  · rintro ⟨a, stop, run⟩
    exact scan.bound a k stop run

end Longest

end Runs

namespace Tiling
open Runs

/-- A byte of a used block, header or payload. -/
def InUse (hdr : Nat) (bs : List Block) (x : Nat) : Prop := ∃ b ∈ live bs, b.addr ≤ x ∧ x < b.addr + hdr + b.size

variable {hdr s e n a z x : Nat} {bs bs' : List Block}

/-- Every byte of the region is in some block. -/
theorem Tiles.cover (tiles : Tiles hdr s e bs) (lower : s ≤ x) (upper : x < e) :
    ∃ b ∈ bs, b.addr ≤ x ∧ x < b.addr + hdr + b.size := by
  induction bs generalizing s with
  | nil =>
    have stop : s = e := tiles
    omega
  | cons b bs ih =>
    obtain ⟨start, rest⟩ := tiles
    by_cases here : x < s + hdr + b.size
    · exact ⟨b, List.mem_cons_self, by omega, by omega⟩
    · obtain ⟨c, member, inside⟩ := ih rest (by omega)
      exact ⟨c, List.mem_cons_of_mem b member, inside⟩

/-- A free block between used ones is a range of unused bytes that cannot be extended. -/
theorem Tiles.maxRun (positive : 0 < hdr) (tiles : Tiles hdr s e bs) (canonical : Canonical bs) {b : Block}
    (member : b ∈ bs) (free : b.free = true) :
    MaxRun (fun x => s ≤ x ∧ x < e ∧ ¬ InUse hdr bs x) b.addr (b.addr + hdr + b.size) := by
  have bounds := tiles.bounds member
  obtain ⟨pre, post, rfl⟩ := List.append_of_mem member
  obtain ⟨mid, left, atB, right⟩ := tiles_append.mp tiles
  obtain ⟨_, canonicalR, apart⟩ := List.isChain_append.mp canonical
  refine ⟨by omega, fun x lower upper => ⟨by omega, by omega, ?_⟩, ?_, ?_⟩
  · rintro ⟨c, used, low, high⟩
    obtain ⟨inBs, taken⟩ := mem_live.mp used
    rcases tiles.apart inBs member with rfl | _ | _
    · simp [free] at taken
    · omega
    · omega
  · rintro x next ⟨lower, _, unused⟩
    -- the block that stops at `b` is used
    have some : pre ≠ [] := by
      rintro rfl
      have stop : s = mid := left
      omega
    obtain ⟨c, last, stop⟩ := left.getLast some
    have inPre := List.mem_of_getLast? last
    have used := apart c last b rfl
    simp only [free, and_true, Bool.not_eq_true] at used
    exact unused ⟨c, mem_live.mpr ⟨by simp [inPre], used⟩, by omega, by omega⟩
  · rintro ⟨_, upper, unused⟩
    cases post with
    | nil =>
      have stop : mid + hdr + b.size = e := right
      omega
    | cons c post =>
      have atC := right.1
      have used := Canonical.next_live canonicalR free
      exact unused ⟨c, mem_live.mpr ⟨by simp, used⟩, by omega, by omega⟩

/-- Where no two neighbours are free, the maximal ranges of unused bytes are the free
blocks. -/
theorem Tiles.maxRun_iff (positive : 0 < hdr) (tiles : Tiles hdr s e bs) (canonical : Canonical bs) :
    MaxRun (fun x => s ≤ x ∧ x < e ∧ ¬ InUse hdr bs x) a z ↔
      ∃ b ∈ bs, b.free = true ∧ b.addr = a ∧ b.addr + hdr + b.size = z := by
  constructor
  · intro run
    obtain ⟨lower, upper, unused⟩ := run.inside a le_rfl run.nonempty
    obtain ⟨b, member, low, high⟩ := tiles.cover lower upper
    have free : b.free = true := by
      by_contra used
      exact unused ⟨b, mem_live.mpr ⟨member, by simpa using used⟩, low, high⟩
    obtain ⟨start, stop⟩ := (tiles.maxRun positive canonical member free).eq_of_mem run ⟨low, high⟩
      ⟨le_rfl, run.nonempty⟩
    exact ⟨b, member, free, start, stop⟩
  · rintro ⟨b, member, free, rfl, rfl⟩
    exact tiles.maxRun positive canonical member free

end Tiling
