import Mathlib.Data.List.Basic
import Mathlib.Tactic.Linarith

namespace ByteStore

/-- A total store of bytes, used both for main memory and for a disk image. -/
abbrev Bytes := Nat → UInt8

/-- The value a 32-bit unsigned register keeps. -/
def u32 (n : Nat) : Nat := n % 2 ^ 32

@[simp] theorem u32_of_lt {n : Nat} (bound : n < 2 ^ 32) : u32 n = n := Nat.mod_eq_of_lt bound

/-- `a - b` in 32-bit unsigned arithmetic, for operands that fit. -/
def sub32 (a b : Nat) : Nat := u32 (a + (2 ^ 32 - b))

theorem sub32_of_le {a b : Nat} (le : b ≤ a) (bound : a < 2 ^ 32) : sub32 a b = a - b := by
  unfold sub32 u32
  omega

def store (m : Bytes) (a : Nat) (b : UInt8) : Bytes := fun x => if x = a then b else m x

@[simp] theorem store_same (m : Bytes) (a : Nat) (b : UInt8) : store m a b a = b := if_pos rfl

theorem store_of_ne {m : Bytes} {a x : Nat} {b : UInt8} (ne : x ≠ a) : store m a b x = m x := if_neg ne

/-- Little-endian 16-bit load. -/
def load16 (m : Bytes) (a : Nat) : Nat := (m a).toNat + 256 * (m (a + 1)).toNat

/-- Little-endian 32-bit load. -/
def load32 (m : Bytes) (a : Nat) : Nat := load16 m a + 65536 * load16 m (a + 2)

def store16 (m : Bytes) (a v : Nat) : Bytes :=
  store (store m a (UInt8.ofNat v)) (a + 1) (UInt8.ofNat (v / 256))

def store32 (m : Bytes) (a v : Nat) : Bytes :=
  store16 (store16 m a v) (a + 2) (v / 65536)

theorem load16_lt (m : Bytes) (a : Nat) : load16 m a < 2 ^ 16 := by
  have low := (m a).toNat_lt
  have high := (m (a + 1)).toNat_lt
  unfold load16
  omega

theorem load32_lt (m : Bytes) (a : Nat) : load32 m a < 2 ^ 32 := by
  have low := load16_lt m a
  have high := load16_lt m (a + 2)
  unfold load32
  omega

theorem load16_congr {m m' : Bytes} {a : Nat} (same : ∀ x, a ≤ x → x < a + 2 → m' x = m x) :
    load16 m' a = load16 m a := by
  unfold load16
  rw [same a (by omega) (by omega), same (a + 1) (by omega) (by omega)]

theorem load32_congr {m m' : Bytes} {a : Nat} (same : ∀ x, a ≤ x → x < a + 4 → m' x = m x) :
    load32 m' a = load32 m a := by
  unfold load32
  rw [load16_congr fun x lower upper => same x lower (by omega),
    load16_congr fun x lower upper => same x (by omega) (by omega)]

theorem store16_outside {m : Bytes} {a v x : Nat} (outside : x < a ∨ a + 2 ≤ x) :
    store16 m a v x = m x := by
  unfold store16
  rw [store_of_ne (by omega), store_of_ne (by omega)]

theorem store32_outside {m : Bytes} {a v x : Nat} (outside : x < a ∨ a + 4 ≤ x) :
    store32 m a v x = m x := by
  unfold store32
  rw [store16_outside (by omega), store16_outside (by omega)]

@[simp] theorem load16_store16_same (m : Bytes) (a v : Nat) : load16 (store16 m a v) a = v % 2 ^ 16 := by
  unfold load16 store16
  rw [store_same, store_of_ne (by omega : a ≠ a + 1), store_same]
  simp only [UInt8.toNat_ofNat']
  omega

theorem load16_store16_other {m : Bytes} {a b v : Nat} (apart : b + 2 ≤ a ∨ a + 2 ≤ b) :
    load16 (store16 m a v) b = load16 m b :=
  load16_congr fun _ _ _ => store16_outside (by omega)

@[simp] theorem load32_store32_same (m : Bytes) (a v : Nat) : load32 (store32 m a v) a = v % 2 ^ 32 := by
  unfold load32 store32
  rw [load16_store16_other (by omega), load16_store16_same, load16_store16_same]
  omega

/-- A word that is copied, byte by byte. -/
theorem store16_load16 (m m' : Bytes) (a b x : Nat) :
    store16 m a (load16 m' b) x = if a ≤ x ∧ x < a + 2 then m' (b + (x - a)) else m x := by
  have low := (m' b).toNat_lt
  have high := (m' (b + 1)).toNat_lt
  have first : UInt8.ofNat (load16 m' b) = m' b := by
    apply UInt8.toNat_inj.mp
    rw [UInt8.toNat_ofNat', load16]
    omega
  have second : UInt8.ofNat (load16 m' b / 256) = m' (b + 1) := by
    apply UInt8.toNat_inj.mp
    rw [UInt8.toNat_ofNat', load16]
    omega
  rw [store16, first, second, store, store]
  by_cases atSecond : x = a + 1
  · subst atSecond
    rw [if_pos rfl, if_pos (by omega), Nat.add_sub_cancel_left]
  · rw [if_neg atSecond]
    by_cases atFirst : x = a
    · subst atFirst
      rw [if_pos rfl, if_pos (by omega), Nat.sub_self, Nat.add_zero]
    · rw [if_neg atFirst, if_neg (by omega)]

/-- A word that is stored twice. -/
theorem store32_store32 (m : Bytes) (a v w : Nat) : store32 (store32 m a v) a w = store32 m a w := by
  funext x
  by_cases outside : x < a ∨ a + 4 ≤ x
  · rw [store32_outside outside, store32_outside outside, store32_outside outside]
  · simp only [store32, store16, store]
    split_ifs <;> rfl

theorem load32_store32_other {m : Bytes} {a b v : Nat} (apart : b + 4 ≤ a ∨ a + 4 ≤ b) :
    load32 (store32 m a v) b = load32 m b :=
  load32_congr fun _ _ _ => store32_outside (by omega)

end ByteStore
