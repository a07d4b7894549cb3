import LearningOS.Store.Bytes
import Mathlib.Data.Set.Finite.Basic
import Mathlib.Data.FinEnum
import Mathlib.Data.Fintype.Pi

namespace ByteStore

/-- The `n` bytes from address `a` on. -/
def window (m : Bytes) (a n : Nat) : List UInt8 := (List.range n).map fun i => m (a + i)

/-- The store with the listed bytes from address `a` on. -/
def paste (m : Bytes) (a : Nat) (bs : List UInt8) : Bytes := fun x =>
  if a ≤ x then (bs[x - a]?).getD (m x) else m x

/-- Bytes of a list replaced from an offset inside it, the list growing if they
reach past its end. -/
def splice (old : List UInt8) (offset : Nat) (bs : List UInt8) : List UInt8 :=
  old.take offset ++ bs ++ old.drop (offset + bs.length)

@[simp] theorem window_length (m : Bytes) (a n : Nat) : (window m a n).length = n := by
  simp [window]

theorem window_eq_map (m : Bytes) (a n : Nat) : window m a n = (List.range' a n).map m := by
  rw [List.range'_eq_map_range, List.map_map]
  rfl

theorem window_getElem? (m : Bytes) (a n i : Nat) :
    (window m a n)[i]? = if i < n then some (m (a + i)) else none := by
  unfold window
  rw [List.getElem?_map]
  split
  · rename_i inside
    rw [List.getElem?_range inside]
    rfl
  · rename_i outside
    rw [List.getElem?_eq_none (by simpa using outside)]
    rfl

theorem window_congr {m m' : Bytes} {a n : Nat} (same : ∀ x, a ≤ x → x < a + n → m' x = m x) :
    window m' a n = window m a n := by
  refine List.map_congr_left fun i member => ?_
  have inside := List.mem_range.mp member
  exact same (a + i) (by omega) (by omega)

theorem take_window (m : Bytes) (a n k : Nat) : (window m a n).take k = window m a (min k n) := by
  unfold window
  rw [← List.map_take, List.take_range]

theorem window_take (m : Bytes) (a : Nat) {n k : Nat} (less : k ≤ n) : (window m a n).take k = window m a k := by
  rw [take_window, Nat.min_eq_left less]

theorem window_drop (m : Bytes) (a n k : Nat) : (window m a n).drop k = window m (a + k) (n - k) := by
  apply List.ext_getElem?
  intro i
  rw [List.getElem?_drop, window_getElem?, window_getElem?, Nat.add_assoc]
  exact if_congr (by omega) rfl rfl

theorem window_add (m : Bytes) (a n k : Nat) : window m a (n + k) = window m a n ++ window m (a + n) k := by
  rw [← List.take_append_drop n (window m a (n + k)), window_take m a (by omega), window_drop,
    Nat.add_sub_cancel_left]

theorem paste_inside {m : Bytes} {a i : Nat} {bs : List UInt8} {b : UInt8} (at_i : bs[i]? = some b) :
    paste m a bs (a + i) = b := by
  simp [paste, at_i]

theorem paste_outside {m : Bytes} {a x : Nat} {bs : List UInt8} (outside : x < a ∨ a + bs.length ≤ x) :
    paste m a bs x = m x := by
  unfold paste
  split
  · rw [List.getElem?_eq_none (by omega)]
    rfl
  · rfl

@[simp] theorem paste_nil (m : Bytes) (a : Nat) : paste m a [] = m := by
  funext x
  exact paste_outside (by simp; omega)

theorem paste_append (m : Bytes) (a : Nat) (xs ys : List UInt8) :
    paste (paste m a xs) (a + xs.length) ys = paste m a (xs ++ ys) := by
  funext x
  unfold paste
  by_cases low : a ≤ x
  · by_cases high : a + xs.length ≤ x
    · rw [if_pos high, if_pos low, if_pos low, List.getElem?_append_right (by omega),
        List.getElem?_eq_none (show xs.length ≤ x - a by omega)]
      simp only [Option.getD_none, Nat.sub_sub]
    · rw [if_neg high, if_pos low, if_pos low, List.getElem?_append_left (by omega)]
  · rw [if_neg (by omega), if_neg low, if_neg low]

theorem paste_window_apply (m m' : Bytes) (a b n x : Nat) :
    paste m a (window m' b n) x = if a ≤ x ∧ x < a + n then m' (b + (x - a)) else m x := by
  unfold paste
  rw [window_getElem?]
  by_cases low : a ≤ x
  · by_cases high : x < a + n
    · rw [if_pos low, if_pos (by omega), if_pos ⟨low, high⟩]
      rfl
    · rw [if_pos low, if_neg (by omega), if_neg (fun both => high both.2)]
      rfl
  · rw [if_neg low, if_neg (fun both => low both.1)]

/-- Bytes put behind those that stood before them go on with these. -/
theorem paste_window_add (m m' : Bytes) {a b a' b' n : Nat} (place : a' = a + n) (source : b' = b + n) (k : Nat) :
    paste (paste m a (window m' b n)) a' (window m' b' k) = paste m a (window m' b (n + k)) := by
  have joined := paste_append m a (window m' b n) (window m' b' k)
  rw [window_length] at joined
  rw [place, joined, source, window_add]

/-- A word that is copied. -/
theorem store16_load16_eq (m m' : Bytes) (a b : Nat) : store16 m a (load16 m' b) = paste m a (window m' b 2) := by
  funext x
  rw [store16_load16, paste_window_apply]

theorem window_paste_same (m : Bytes) (a : Nat) (bs : List UInt8) : window (paste m a bs) a bs.length = bs := by
  apply List.ext_getElem?
  intro i
  rw [window_getElem?]
  split
  · rename_i inside
    rw [paste_inside (List.getElem?_eq_getElem inside), List.getElem?_eq_getElem inside]
  · rename_i outside
    rw [List.getElem?_eq_none (by omega)]

theorem window_paste_apart {m : Bytes} {a b n : Nat} {bs : List UInt8} (apart : a + bs.length ≤ b ∨ b + n ≤ a) :
    window (paste m a bs) b n = window m b n :=
  window_congr fun _ _ _ => paste_outside (by omega)

/-- Pasting inside a window splices its bytes. -/
theorem window_paste {m : Bytes} {a n offset : Nat} {bs : List UInt8} (fits : offset + bs.length ≤ n) :
    window (paste m (a + offset) bs) a n = splice (window m a n) offset bs := by
  have parts : n = offset + bs.length + (n - (offset + bs.length)) := by omega
  have middle : window (paste m (a + offset) bs) (a + offset) bs.length = bs := window_paste_same _ _ _
  have before : window (paste m (a + offset) bs) a offset = window m a offset := window_paste_apart (by omega)
  have after : window (paste m (a + offset) bs) (a + (offset + bs.length)) (n - (offset + bs.length)) =
      window m (a + (offset + bs.length)) (n - (offset + bs.length)) := window_paste_apart (by omega)
  unfold splice
  rw [window_take m a (by omega), window_drop, ← after, ← before]
  conv_lhs => rw [parts, window_add, window_add, middle]

theorem splice_append {old bs : List UInt8} {more : List UInt8} {offset : Nat} (inside : offset ≤ old.length)
    (reaches : old.length + more.length = offset + bs.length) :
    splice (old ++ more) offset bs = splice old offset bs := by
  unfold splice
  rw [List.take_append_of_le_length inside, List.drop_eq_nil_of_le (by simp; omega),
    List.drop_eq_nil_of_le (by omega)]

/-- The memory as pointers see it, each an address of 32 bits. -/
def wrapped (m : Bytes) : Bytes := fun x => m (u32 x)

theorem load32_wrapped_congr {m : Bytes} {a b : Nat} (same : u32 a = u32 b) :
    load32 (wrapped m) a = load32 (wrapped m) b := by
  have byte (j : Nat) : wrapped m (a + j) = wrapped m (b + j) :=
    congrArg m (by unfold u32 at same ⊢; omega)
  have first : wrapped m a = wrapped m b := byte 0
  simp only [load32, load16, Nat.add_assoc, byte, first]

/-- `memcpy` from a buffer of the caller: the destination pointer wraps. -/
def copyIn (m : Bytes) (dst : Nat) : List UInt8 → Bytes
  | [] => m
  | b :: bs => copyIn (store m (u32 dst) b) (dst + 1) bs

/-- `memcpy` to a buffer of the caller. -/
def copyOut (m : Bytes) (src n : Nat) : List UInt8 := (List.range n).map fun i => m (u32 (src + i))

/-- `memcpy` inside one memory, byte after byte. -/
def memcpy (m : Bytes) (dst src n : Nat) : Bytes :=
  (List.range n).foldl (fun m i => store m (u32 (dst + i)) (m (u32 (src + i)))) m

/-- `memset`, byte after byte. -/
def memset (m : Bytes) (dst : Nat) (v : UInt8) (n : Nat) : Bytes :=
  (List.range n).foldl (fun m i => store m (u32 (dst + i)) v) m

/-- Stores at computed addresses leave every other byte. -/
theorem foldl_store_outside {m : Bytes} {addr : Nat → Nat} {value : Bytes → Nat → UInt8} {n x : Nat}
    (outside : ∀ j, j < n → x ≠ addr j) :
    (List.range n).foldl (fun m j => store m (addr j) (value m j)) m x = m x := by
  induction n with
  | zero => rfl
  | succ n ih =>
    rw [List.range_succ, List.foldl_append, List.foldl_cons, List.foldl_nil, store_of_ne (outside n (by omega))]
    exact ih fun j below => outside j (by omega)

theorem memcpy_outside {m : Bytes} {dst src n x : Nat} (outside : ∀ j, j < n → x ≠ u32 (dst + j)) :
    memcpy m dst src n x = m x := foldl_store_outside outside

theorem memset_outside {m : Bytes} {dst n x : Nat} {v : UInt8} (outside : ∀ j, j < n → x ≠ u32 (dst + j)) :
    memset m dst v n x = m x := foldl_store_outside outside

theorem copyOut_eq_window {m : Bytes} {src n : Nat} (fits : src + n ≤ 2 ^ 32) : copyOut m src n = window m src n := by
  refine List.map_congr_left fun i member => ?_
  have inside := List.mem_range.mp member
  rw [u32_of_lt (by omega)]

theorem copyIn_eq_paste {m : Bytes} {dst : Nat} {bs : List UInt8} (fits : dst + bs.length ≤ 2 ^ 32) :
    copyIn m dst bs = paste m dst bs := by
  induction bs generalizing m dst with
  | nil => simp [copyIn]
  | cons b bs ih =>
    rw [List.length_cons] at fits
    rw [copyIn, ih (by omega), u32_of_lt (by omega)]
    funext x
    rcases Nat.lt_trichotomy x dst with below | rfl | above
    · rw [paste_outside (by omega), paste_outside (by omega), store_of_ne (by omega)]
    · rw [paste_outside (by omega), store_same]
      exact (paste_inside (i := 0) rfl).symm
    · unfold paste
      rw [if_pos (by omega), if_pos (by omega), show x - dst = x - (dst + 1) + 1 by omega, List.getElem?_cons_succ,
        store_of_ne (by omega)]

/-- A copy between ranges that do not meet is a paste of the source bytes. -/
theorem memcpy_eq_paste {m : Bytes} {dst src n : Nat} (dstFits : dst + n ≤ 2 ^ 32) (srcFits : src + n ≤ 2 ^ 32)
    (apart : dst + n ≤ src ∨ src + n ≤ dst) : memcpy m dst src n = paste m dst (window m src n) := by
  induction n with
  | zero => simp [memcpy, window]
  | succ n ih =>
    have before := ih (by omega) (by omega) (by omega)
    unfold memcpy at before ⊢
    rw [List.range_succ, List.foldl_append, before, List.foldl_cons, List.foldl_nil, u32_of_lt (by omega),
      u32_of_lt (by omega), paste_outside (by simp; omega)]
    funext x
    by_cases last : x = dst + n
    · subst last
      have at_n : (window m src (n + 1))[n]? = some (m (src + n)) := by
        rw [window_getElem?, if_pos (by omega)]
      rw [store_same, paste_inside at_n]
    · rw [store_of_ne last]
      unfold paste
      split
      · rw [window_getElem?, window_getElem?]
        exact congrArg (Option.getD · (m x)) (if_congr (by omega) rfl rfl)
      · rfl

/-- A fill inside the address space is a paste of one byte. -/
theorem memset_eq_paste {m : Bytes} {dst n : Nat} {v : UInt8} (fits : dst + n ≤ 2 ^ 32) :
    memset m dst v n = paste m dst (List.replicate n v) := by
  induction n with
  | zero => simp [memset]
  | succ n ih =>
    have before := ih (by omega)
    unfold memset at before ⊢
    have last := paste_append m dst (List.replicate n v) [v]
    rw [List.length_replicate] at last
    rw [List.range_succ, List.foldl_append, before, List.foldl_cons, List.foldl_nil, u32_of_lt (by omega),
      List.replicate_succ', ← last]
    funext x
    by_cases same : x = dst + n
    · subst same
      rw [store_same]
      exact (paste_inside (i := 0) rfl).symm
    · have away : x < dst + n ∨ dst + n + [v].length ≤ x := by
        rw [List.length_singleton]
        omega
      exact (store_of_ne same).trans (paste_outside away).symm

/-- Memories that differ below an address only are finitely many. -/
theorem finite_same_outside (m : Bytes) (n : Nat) : {m' : Bytes | ∀ x, n ≤ x → m' x = m x}.Finite := by
  refine Set.Finite.of_injOn (f := fun (m' : Bytes) (i : Fin n) => m' i) (Set.mapsTo_univ _ _) ?_ Set.finite_univ
  intro a inA b inB same
  funext x
  rcases Nat.lt_or_ge x n with below | above
  · exact congrFun same ⟨x, below⟩
  · rw [inA x above, inB x above]

/-- One push on a stack that grows down: the memory and the stack pointer. -/
def push (s : Bytes × Nat) (word : Nat) : Bytes × Nat :=
  (store32 s.1 (sub32 s.2 4) word, sub32 s.2 4)

theorem foldl_push_outside {ws : List Nat} {m : Bytes} {esp x : Nat} (room : 4 * ws.length ≤ esp)
    (small : esp < 2 ^ 32) (outside : x < esp - 4 * ws.length ∨ esp ≤ x) :
    (ws.foldl push (m, esp)).1 x = m x := by
  induction ws generalizing m esp with
  | nil => rfl
  | cons w ws ih =>
    simp only [List.length_cons] at room outside
    have down : sub32 esp 4 = esp - 4 := sub32_of_le (by omega) small
    rw [List.foldl_cons, push, down, ih (by omega) (by omega) (by omega), store32_outside (by omega)]

theorem foldl_push_esp {ws : List Nat} {m : Bytes} {esp : Nat} (room : 4 * ws.length ≤ esp) (small : esp < 2 ^ 32) :
    (ws.foldl push (m, esp)).2 = esp - 4 * ws.length := by
  induction ws generalizing m esp with
  | nil => rfl
  | cons w ws ih =>
    simp only [List.length_cons] at room ⊢
    have down : sub32 esp 4 = esp - 4 := sub32_of_le (by omega) small
    rw [List.foldl_cons, push, down, ih (by omega) (by omega)]
    omega

theorem foldl_push_written {ws : List Nat} {m : Bytes} {esp i w : Nat} (room : 4 * ws.length ≤ esp)
    (small : esp < 2 ^ 32) (atI : ws[i]? = some w) :
    load32 (ws.foldl push (m, esp)).1 (esp - 4 * (i + 1)) = w % 2 ^ 32 := by
  induction ws generalizing m esp i with
  | nil => simp at atI
  | cons v vs ih =>
    simp only [List.length_cons] at room
    have down : sub32 esp 4 = esp - 4 := sub32_of_le (by omega) small
    rw [List.foldl_cons, push, down]
    cases i with
    | zero =>
      cases Option.some.inj atI
      rw [load32_congr fun x lower upper => foldl_push_outside (by omega) (by omega) (by omega)]
      exact load32_store32_same _ _ _
    | succ i =>
      have below := ih (m := store32 m (esp - 4) v) (by omega : 4 * vs.length ≤ esp - 4) (by omega) atI
      rwa [show esp - 4 - 4 * (i + 1) = esp - 4 * (i + 1 + 1) by omega] at below

end ByteStore
