import LearningOS.Frames.Alloc
import LearningOS.Store.Runs

namespace LearningOS
open ByteStore Runs

/-- A state of the allocator: a bitmap with a bit for every frame, in which frame 0 and the
bits behind the frames are set. -/
structure FrameState (s : Frames) : Prop where
  small : s.totalFrames < 2 ^ 20
  covered : s.totalFrames ≤ 32 * s.bitmapWords
  zero : testFrame s 0 = true
  rest : ∀ f, s.totalFrames ≤ f → f < 32 * s.bitmapWords → testFrame s f = true

/-- A frame that the bitmap, if there is one, has as free. -/
def Clear (s : Frames) (f : Nat) : Prop := s.frameBitmap ≠ 0 ∧ testFrame s f = false

/-- The first `count` frames in a row that are all free and managed. -/
structure FirstFreeRun (s : Frames) (count start : Nat) : Prop where
  inside : start + count ≤ s.totalFrames
  clear : RunAt (Clear s) start count
  first : ∀ a, a + count ≤ s.totalFrames → RunAt (Clear s) a count → start ≤ a

/-- The state with some free frames in a row marked used, and nothing else changed. -/
structure Marked (s s' : Frames) (start count : Nat) : Prop where
  bits : ∀ f, testFrame s' f = true ↔ testFrame s f = true ∨ start ≤ f ∧ f < start + count
  used : s'.usedFrames = u32 (s.usedFrames + count)
  totalFrames : s'.totalFrames = s.totalFrames
  bitmapWords : s'.bitmapWords = s.bitmapWords
  frameBitmap : s'.frameBitmap = s.frameBitmap
  placementAddr : s'.placementAddr = s.placementAddr

section
variable {s : Frames} {count fuel start f : Nat}

/-- A used frame met in the search rules out every candidate up to it. -/
theorem not_run_of_used {a i : Nat} (used : testFrame s (start + i) = true) (within : i < count) (lower : start ≤ a)
    (upper : a ≤ start + i) : ¬ RunAt (Clear s) a count := by
  intro run
  have clear := (run (start + i - a) (by omega)).2
  rw [show a + (start + i - a) = start + i by omega, used] at clear
  simp at clear

/-- The search with its skips finds what the naive search finds. -/
theorem contiguousScan_spec (placed : s.frameBitmap ≠ 0) (positive : 0 < count)
    (enough : s.totalFrames < start + fuel) :
    (contiguousScan s count fuel start = none ∧
      ∀ a, start ≤ a → a + count ≤ s.totalFrames → ¬ RunAt (Clear s) a count) ∨
    ∃ found, contiguousScan s count fuel start = some found ∧ start ≤ found ∧ found + count ≤ s.totalFrames ∧
      RunAt (Clear s) found count ∧ ∀ a, start ≤ a → a < found → ¬ RunAt (Clear s) a count := by
  induction fuel generalizing start with
  | zero => exact Or.inl ⟨rfl, fun a lower inside => by omega⟩
  | succ fuel ih =>
    unfold contiguousScan
    by_cases room : start + count ≤ s.totalFrames
    · rw [if_pos room]
      cases hit : (List.range count).find? fun i => testFrame s (start + i) with
      | some i =>
        have used := List.find?_some hit
        have within := List.mem_range.mp (List.mem_of_find?_eq_some hit)
        rcases ih (show s.totalFrames < start + i + 1 + fuel by omega) with ⟨run, none⟩ | ⟨found, run, lower, inside, clear, before⟩
        · refine Or.inl ⟨run, fun a low inside => ?_⟩
          rcases Nat.lt_or_ge (start + i) a with behind | skipped
          · exact none a behind inside
          · exact not_run_of_used used within low skipped
        · refine Or.inr ⟨found, run, by omega, inside, clear, fun a low less => ?_⟩
          rcases Nat.lt_or_ge (start + i) a with behind | skipped
          · exact before a behind less
          · exact not_run_of_used used within low skipped
      | none =>
        refine Or.inr ⟨start, rfl, le_rfl, room, fun i less => ⟨placed, ?_⟩, fun a low less => by omega⟩
        simpa using List.find?_eq_none.mp hit i (List.mem_range.mpr less)
    · rw [if_neg room]
      exact Or.inl ⟨rfl, fun a lower inside => by omega⟩

theorem Marked.succ {s' : Frames} (marked : Marked s s' start count) (clear : testFrame s (start + count) = false) :
    Marked s (setFrame s' (start + count)) start (count + 1) := by
  have free : ¬ testFrame s' (start + count) = true := by
    rw [marked.bits, clear]
    simp
  refine ⟨fun f => ?_, ?_, ?_, ?_, ?_, ?_⟩
  · have grown : start ≤ f ∧ f < start + (count + 1) ↔ f = start + count ∨ start ≤ f ∧ f < start + count := by omega
    rw [testFrame_setFrame, Bool.or_eq_true, decide_eq_true_iff, marked.bits, grown]
    exact or_left_comm
  · rw [setFrame, if_neg free]
    simp only [marked.used]
    unfold u32
    omega
  · rw [setFrame_totalFrames, marked.totalFrames]
  · rw [setFrame_bitmapWords, marked.bitmapWords]
  · rw [setFrame_frameBitmap, marked.frameBitmap]
  · rw [setFrame, if_neg free]
    exact marked.placementAddr

/-- The marking loop of `frame_alloc_contiguous` on free frames. -/
theorem marked_range (word : s.usedFrames < 2 ^ 32) (clear : ∀ i, i < count → testFrame s (start + i) = false) :
    Marked s ((List.range count).foldl (fun s i => setFrame s (start + i)) s) start count := by
  induction count with
  | zero =>
    refine ⟨fun f => ?_, (u32_of_lt word).symm, rfl, rfl, rfl, rfl⟩
    exact (or_iff_left (by omega)).symm
  | succ count ih =>
    rw [List.range_succ, List.foldl_append]
    exact (ih fun i less => clear i (by omega)).succ (clear count (by omega))

/-- The loop of `frame_largest_free_run` keeps the longest run of free frames. -/
theorem largestRun_scan (placed : s.frameBitmap ≠ 0) {n : Nat} (small : n < 2 ^ 32) :
    Longest (Clear s) n ((List.range n).foldl (largestRunStep s) (0, 0)).1
      ((List.range n).foldl (largestRunStep s) (0, 0)).2 := by
  induction n with
  | zero => exact .zero _
  | succ n ih =>
    have scan := ih (by omega)
    have le := scan.le
    rw [List.range_succ, List.foldl_append]
    generalize (List.range n).foldl (largestRunStep s) (0, 0) = r at scan le
    simp only [List.foldl_cons, List.foldl_nil, largestRunStep]
    cases used : testFrame s n with
    | true => exact scan.miss fun clear => absurd clear.2 (by simp [used])
    | false =>
      have hit := scan.hit ⟨placed, used⟩
      rw [if_neg (by simp), u32_of_lt (by omega)]
      rcases Nat.lt_or_ge r.1 (r.2 + 1) with grows | stays
      · rw [Nat.max_eq_right grows.le] at hit
        simpa only [if_pos grows] using hit
      · rw [Nat.max_eq_left stays] at hit
        simpa only [if_neg (Nat.not_lt.mpr stays)] using hit

/-- The statistic decides which requests there is a run for. -/
theorem le_largestRun_iff (small : s.totalFrames < 2 ^ 32) (positive : 0 < count) :
    count ≤ frameLargestFreeRun s ↔ ∃ a, a + count ≤ s.totalFrames ∧ RunAt (Clear s) a count := by
  unfold frameLargestFreeRun
  by_cases absent : s.frameBitmap = 0
  · rw [if_pos absent]
    refine iff_of_false (by omega) ?_
    rintro ⟨a, _, run⟩
    exact (run 0 positive).1 absent
  · rw [if_neg absent]
    exact (largestRun_scan absent small).le_iff

end

/-- Contiguous allocation is the naive first-fit search: it takes the first run of free frames
that is long enough and marks it, or changes nothing if there is none; so it succeeds exactly
if the longest free run is long enough. -/
theorem frame_alloc_contiguous_first_fit {s : Frames} {count : Nat} (state : FrameState s)
    (word : s.usedFrames < 2 ^ 32) (positive : 1 ≤ count) :
    ((∃ start s', FirstFreeRun s count start ∧ Marked s s' start count ∧
        frameAllocContiguous s count = (s', start * 4096)) ∨
      (∀ a, a + count ≤ s.totalFrames → ¬ RunAt (Clear s) a count) ∧ frameAllocContiguous s count = (s, 0)) ∧
    ((frameAllocContiguous s count).2 ≠ 0 ↔ count ≤ frameLargestFreeRun s) := by
  have small := state.small
  rw [le_largestRun_iff (by omega) positive]
  have nonzero {a : Nat} (run : RunAt (Clear s) a count) : a ≠ 0 := by
    rintro rfl
    have clear := (run 0 positive).2
    rw [Nat.zero_add, state.zero] at clear
    simp at clear
  have cases : (∃ start s', FirstFreeRun s count start ∧ Marked s s' start count ∧
        frameAllocContiguous s count = (s', start * 4096)) ∨
      (∀ a, a + count ≤ s.totalFrames → ¬ RunAt (Clear s) a count) ∧ frameAllocContiguous s count = (s, 0) := by
    unfold frameAllocContiguous
    by_cases absent : s.frameBitmap = 0
    · exact Or.inr ⟨fun a _ run => (run 0 positive).1 absent, if_pos (Or.inl absent)⟩
    · rw [if_neg (by omega)]
      by_cases many : count > s.totalFrames
      · exact Or.inr ⟨fun a inside => by omega, if_pos many⟩
      · rw [if_neg many]
        rcases contiguousScan_spec absent positive (show s.totalFrames < 0 + (s.totalFrames + 1) by omega) with
          ⟨run, none⟩ | ⟨start, run, _, inside, clear, before⟩
        · rw [run]
          exact Or.inr ⟨fun a => none a (Nat.zero_le a), rfl⟩
        · refine Or.inl ⟨start, _, ⟨inside, clear, fun a _ other => ?_⟩,
            marked_range word fun i less => (clear i less).2, ?_⟩
          · by_contra less
            exact before a (Nat.zero_le a) (by omega) other
          · rw [run]
            exact congrArg (Prod.mk _) (u32_of_lt (by omega))
  refine ⟨cases, ?_⟩
  rcases cases with ⟨start, s', first, _, run⟩ | ⟨none, run⟩
  · rw [run]
    have behind := nonzero first.clear
    exact iff_of_true (by simp only; omega) ⟨start, first.inside, first.clear⟩
  · rw [run]
    refine iff_of_false (by simp) ?_
    rintro ⟨a, inside, clear⟩
    exact none a inside clear

/-- An allocator of eight frames, the first two of them used. -/
def eightFrames : Frames := ⟨0x200000, fun _ => 0xFFFFFF03#32, 8, 2, 1, 0x200004⟩

theorem eightFrames_state : FrameState eightFrames := by
  refine ⟨by decide, by decide, by decide, fun f lower upper => ?_⟩
  exact (show ∀ f, f < 32 → 8 ≤ f → testFrame eightFrames f = true by decide) f upper lower

theorem frame_alloc_contiguous_first_fit_eightFrames :
    (frameAllocContiguous eightFrames 3).2 ≠ 0 ↔ 3 ≤ frameLargestFreeRun eightFrames :=
  (frame_alloc_contiguous_first_fit eightFrames_state (by decide) (by decide)).2

/-- `frame_alloc` is `frame_alloc_contiguous` for one frame. -/
theorem frame_alloc_eq_contiguous_one {s : Frames} (state : FrameState s) :
    frameAlloc s = frameAllocContiguous s 1 := by
  have small := state.small
  have covered := state.covered
  unfold frameAlloc frameAllocContiguous
  by_cases absent : s.frameBitmap = 0
  · rw [if_pos absent, if_pos (Or.inl absent)]
  · rw [if_neg absent, if_neg (by simp [absent])]
    have none_of (full : ∀ f, f < s.totalFrames → testFrame s f = true) : frameAllocScan s = none := by
      refine frameAllocScan_eq_none.mpr fun f below => ?_
      rcases Nat.lt_or_ge f s.totalFrames with managed | behind
      · exact full f managed
      · exact state.rest f behind below
    by_cases many : 1 > s.totalFrames
    · rw [none_of fun f below => by omega, if_pos many]
    · rw [if_neg many]
      rcases contiguousScan_spec absent Nat.one_pos (show s.totalFrames < 0 + (s.totalFrames + 1) by omega) with
        ⟨run, none⟩ | ⟨start, run, _, inside, clear, before⟩
      · rw [run, none_of fun f below => ?_]
        by_contra free
        refine none f (Nat.zero_le f) below fun i less => ⟨absent, ?_⟩
        rw [show f + i = f by omega]
        simpa using free
      · have bit := (clear 0 Nat.one_pos).2
        have least : frameAllocScan s = some start := by
          refine frameAllocScan_eq_some.mpr ⟨bit, by omega, fun g less => ?_⟩
          by_contra free
          refine before g (Nat.zero_le g) less fun i one => ⟨absent, ?_⟩
          rw [show g + i = g by omega]
          simpa using free
        rw [run, least]
        rfl

theorem frame_alloc_eq_contiguous_eightFrames : frameAlloc eightFrames = frameAllocContiguous eightFrames 1 :=
  frame_alloc_eq_contiguous_one eightFrames_state

end LearningOS
