import LearningOS.Store.Bytes
import Mathlib.Data.List.Nodup

namespace ByteStore

/-- The entries of a table of 16-bit words. -/
def word (m : Bytes) (base i : Nat) : Nat := load16 m (base + 2 * i)

def setWord (m : Bytes) (base i v : Nat) : Bytes := store16 m (base + 2 * i) v

/-- Entries set one after the other. -/
def setWords (m : Bytes) (base : Nat) (changes : List (Nat × Nat)) : Bytes :=
  changes.foldl (fun m p => setWord m base p.1 p.2) m

theorem word_congr {m m' : Bytes} {base i : Nat}
    (same : ∀ x, base + 2 * i ≤ x → x < base + 2 * i + 2 → m' x = m x) : word m' base i = word m base i :=
  load16_congr same

@[simp] theorem word_setWord_same (m : Bytes) (base i v : Nat) : word (setWord m base i v) base i = v % 2 ^ 16 :=
  load16_store16_same m _ v

theorem word_setWord_other {m : Bytes} {base i j v : Nat} (differ : j ≠ i) :
    word (setWord m base i v) base j = word m base j := load16_store16_other (by omega)

theorem setWord_outside {m : Bytes} {base i v x : Nat} (outside : x < base + 2 * i ∨ base + 2 * i + 2 ≤ x) :
    setWord m base i v x = m x := store16_outside outside

/-- The entries of a table determine its bytes. -/
theorem word_injective {m m' : Bytes} {base n x : Nat} (same : ∀ i, i < n → word m' base i = word m base i)
    (lower : base ≤ x) (upper : x < base + 2 * n) : m' x = m x := by
  have words := same ((x - base) / 2) (by omega)
  have lowByte := (m' (base + 2 * ((x - base) / 2))).toNat_lt
  have lowByte' := (m (base + 2 * ((x - base) / 2))).toNat_lt
  simp only [word, load16] at words
  apply UInt8.toNat_inj.mp
  by_cases even : (x - base) % 2 = 0
  · rw [show x = base + 2 * ((x - base) / 2) by omega]
    omega
  · rw [show x = base + 2 * ((x - base) / 2) + 1 by omega]
    omega

/-- Setting entries changes no byte that is not in one of them. -/
theorem setWords_outside {changes : List (Nat × Nat)} {m : Bytes} {base x : Nat}
    (outside : ∀ p ∈ changes, x < base + 2 * p.1 ∨ base + 2 * p.1 + 2 ≤ x) : setWords m base changes x = m x := by
  induction changes generalizing m with
  | nil => rfl
  | cons p rest ih =>
    exact (ih fun q member => outside q (List.mem_cons_of_mem p member)).trans
      (setWord_outside (outside p List.mem_cons_self))

theorem word_setWords_other {changes : List (Nat × Nat)} {m : Bytes} {base i : Nat}
    (absent : i ∉ changes.map Prod.fst) : word (setWords m base changes) base i = word m base i := by
  refine word_congr fun x _ _ => setWords_outside fun p member => ?_
  have differ : p.1 ≠ i := fun same => absent (same ▸ List.mem_map_of_mem member)
  omega

/-- An entry set once has its value. -/
theorem word_setWords {changes : List (Nat × Nat)} {m : Bytes} {base i v : Nat} (once : (changes.map Prod.fst).Nodup)
    (member : (i, v) ∈ changes) : word (setWords m base changes) base i = v % 2 ^ 16 := by
  induction changes generalizing m with
  | nil => simp at member
  | cons p rest ih =>
    obtain ⟨absent, once⟩ := List.nodup_cons.mp once
    rcases List.mem_cons.mp member with rfl | later
    · exact (word_setWords_other (m := setWord m base i v) absent).trans (word_setWord_same m base i v)
    · exact ih once later

end ByteStore
