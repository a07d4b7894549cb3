import LearningOS.Fat.Model
import LearningOS.Store.Scans
import LearningOS.Store.Strings

namespace LearningOS
open ByteStore NulText

namespace Kprintf

def u64 (n : Nat) : Nat := n % 2 ^ 64

def putPadding (count : Int) (pad : UInt8) : List UInt8 := List.replicate count.toNat pad

/-- The first loop of `u64_divmod`: `denom` and `current`. -/
def shiftUp (n denom current : Nat) : Nat × Nat :=
  if u64 (denom * 2) > denom ∧ u64 (denom * 2) ≤ n then shiftUp n (u64 (denom * 2)) (u64 (current * 2))
  else (denom, current)
termination_by n - denom
decreasing_by omega

/-- Its second loop: the quotient, and what is left of `n`. -/
def shiftDown (n quotient denom current : Nat) : Nat × Nat :=
  if current = 0 then (quotient, n)
  else if n ≥ denom then shiftDown (n - denom) (quotient ||| current) (denom / 2) (current / 2)
  else shiftDown n quotient (denom / 2) (current / 2)
termination_by current

def u64Divmod (n base : Nat) : Nat × Nat :=
  if base = 0 then (0, 0)
  else
    let (denom, current) := shiftUp n base 1
    let (quotient, rest) := shiftDown n 0 denom current
    (quotient, u32 rest)

def lowerDigits : List UInt8 :=
  ['0', '1', '2', '3', '4', '5', '6', '7', '8', '9', 'a', 'b', 'c', 'd', 'e', 'f'].map Char.toUInt8

def upperDigits : List UInt8 :=
  ['0', '1', '2', '3', '4', '5', '6', '7', '8', '9', 'A', 'B', 'C', 'D', 'E', 'F'].map Char.toUInt8

def digitChar (uppercase : Bool) (digit : Nat) : UInt8 :=
  (if uppercase then upperDigits else lowerDigits).getD digit 0

/-- The loop that fills `buf`, the last digit first. -/
def fillDigits (base : Nat) (uppercase : Bool) (value : Nat) (buf : List UInt8) : List UInt8 :=
  if value > 0 ∧ buf.length < 32 then
    let (value, digit) := u64Divmod value base
    fillDigits base uppercase value (buf ++ [digitChar uppercase digit])
  else buf
termination_by 32 - buf.length
decreasing_by
  rw [List.length_append, List.length_singleton]
  omega

def printUintBase (value base : Nat) (width : Int) (pad : UInt8) (uppercase : Bool) : List UInt8 :=
  let buf := if value = 0 then ['0'.toUInt8] else fillDigits base uppercase value []
  (if width > buf.length then putPadding (width - buf.length) pad else []) ++ buf.reverse

def printIntDecimal (value width : Int) (pad : UInt8) : List UInt8 :=
  if value < 0 then
    '-'.toUInt8 :: printUintBase (-value % 2 ^ 64).toNat 10 (if width > 0 then width - 1 else width) pad false
  else printUintBase value.toNat 10 width pad false

def printString (s : List UInt8) (width : Int) (pad : UInt8) : List UInt8 :=
  (if width > toInt32 s.length then putPadding (width - toInt32 s.length) pad else []) ++ s

/-- The string `print_string` prints for a pointer. -/
def stringArgument (m : Bytes) (s : Nat) : Option (List UInt8) :=
  if s = 0 then some (['(', 'n', 'u', 'l', 'l', ')'].map Char.toUInt8) else stringAt m s

/-- The `switch` of `kvprintf`: what it prints, and the next of the words that `args` leads to;
none where it comes to no end of a string. -/
def convert (m : Bytes) (args : Nat → Nat) (c : UInt8) (width : Int) (pad : UInt8) (arg : Nat) :
    Option (List UInt8 × Nat) :=
  let v := u32 (args arg)
  if c = 'c'.toUInt8 then some ([UInt8.ofNat v], arg + 1)
  else if c = 's'.toUInt8 then (stringArgument m v).map fun s => (printString s width pad, arg + 1)
  else if c = 'd'.toUInt8 then some (printIntDecimal (toInt32 v) width pad, arg + 1)
  else if c = 'u'.toUInt8 then some (printUintBase v 10 width pad false, arg + 1)
  else if c = 'x'.toUInt8 then some (printUintBase v 16 width pad true, arg + 1)
  else if c = 'X'.toUInt8 then some (printUintBase v 16 width pad true, arg + 1)
  else if c = 'p'.toUInt8 then
    let ptrWidth := if width ≠ 0 then width else 8
    let ptrPad := if width = 0 then '0'.toUInt8 else pad
    some ('0'.toUInt8 :: 'x'.toUInt8 :: printUintBase v 16 ptrWidth ptrPad true, arg + 1)
  else if c = '%'.toUInt8 then some (['%'.toUInt8], arg)
  else some (['%'.toUInt8, c], arg)

def fmtAt (m : Bytes) (fmt i : Nat) : UInt8 := m (u32 (fmt + i))

def isDigit (c : UInt8) : Bool := '0'.toUInt8 ≤ c && c ≤ '9'.toUInt8

/-- Where the loop over the width ends, with what, and the indices it reads. -/
structure Width where
  i : Nat
  width : Int
  reads : List Nat

/-- The loop over the width, for as many rounds as there are indices; the sum wraps around as a
32-bit integer. -/
def readWidth (m : Bytes) (fmt : Nat) : Nat → Nat → Int → Option Width
  | 0, _, _ => none
  | rounds + 1, i, width =>
    if isDigit (fmtAt m fmt i) then
      let digit : Int := (fmtAt m fmt i).toNat - '0'.toNat
      (readWidth m fmt rounds (u32 (i + 1)) ((width * 10 + digit).bmod (2 ^ 32))).map
        fun w => { w with reads := i :: w.reads }
    else some { i := i, width := width, reads := [i] }

/-- A round of the loop of `kvprintf`: the index at its end, none where it leaves the loop, what
it prints, the next argument, and the indices it reads. -/
structure Round where
  last : Option Nat
  out : List UInt8
  arg : Nat
  reads : List Nat

/-- The body of the loop behind the width. -/
def conversion (m : Bytes) (fmt : Nat) (args : Nat → Nat) (pad : UInt8) (w : Width) (arg : Nat) : Option Round :=
  if fmtAt m fmt w.i = 'l'.toUInt8 ∧ fmtAt m fmt (u32 (w.i + 1)) = 'l'.toUInt8 then
    let i := u32 (w.i + 2)
    let reads := w.reads ++ [u32 (w.i + 1), i]
    if fmtAt m fmt i = 0 then some { last := none, out := [], arg := arg, reads := reads }
    else if fmtAt m fmt i = 'u'.toUInt8 then
      let v := u32 (args arg) + 2 ^ 32 * u32 (args (arg + 1))
      some { last := some i, out := printUintBase v 10 w.width pad false, arg := arg + 2, reads := reads }
    else
      let out := ['%', 'l', 'l'].map Char.toUInt8 ++ [fmtAt m fmt i]
      some { last := some i, out := out, arg := arg, reads := reads }
  else
    let ahead := if fmtAt m fmt w.i = 'l'.toUInt8 then [u32 (w.i + 1)] else []
    (convert m args (fmtAt m fmt w.i) w.width pad arg).map fun (out, arg) =>
      { last := some w.i, out := out, arg := arg, reads := w.reads ++ ahead }

/-- The body of the loop behind a `%`. -/
def directive (m : Bytes) (fmt : Nat) (args : Nat → Nat) (i arg : Nat) : Option Round :=
  let i := u32 (i + 1)
  if fmtAt m fmt i = 0 then some { last := none, out := [], arg := arg, reads := [i] }
  else
    let zero := fmtAt m fmt i = '0'.toUInt8
    let pad := if zero then '0'.toUInt8 else ' '.toUInt8
    (readWidth m fmt (2 ^ 32) (if zero then u32 (i + 1) else i) 0).bind fun w =>
      conversion m fmt args pad { w with reads := i :: w.reads } arg

def round (m : Bytes) (fmt : Nat) (args : Nat → Nat) (i arg : Nat) : Option Round :=
  if fmtAt m fmt i ≠ '%'.toUInt8 then some { last := some i, out := [fmtAt m fmt i], arg := arg, reads := [] }
  else directive m fmt args i arg

/-- What a run prints, the arguments it takes, and the indices of the format it reads. -/
structure Printed where
  out : List UInt8
  arg : Nat
  reads : List Nat

/-- The loop of `kvprintf`, none where there are more than `rounds` of it. -/
def kvprintfFrom (m : Bytes) (fmt : Nat) (args : Nat → Nat) : Nat → Nat → Nat → Option Printed
  | 0, _, _ => none
  | rounds + 1, i, arg =>
    if fmtAt m fmt i = 0 then some { out := [], arg := arg, reads := [i] }
    else
      (round m fmt args i arg).bind fun r =>
        match r.last with
        | none => some { out := r.out, arg := r.arg, reads := i :: r.reads }
        | some j =>
          (kvprintfFrom m fmt args rounds (u32 (j + 1)) r.arg).map
            fun p => { p with out := r.out ++ p.out, reads := i :: r.reads ++ p.reads }

def kvprintf (m : Bytes) (fmt : Nat) (args : Nat → Nat) (rounds : Nat) : Option Printed :=
  kvprintfFrom m fmt args rounds 0 0

/-- A text with its NUL at a format pointer. -/
structure Format (m : Bytes) (fmt : Nat) (text : List UInt8) : Prop where
  short : text.length < 2 ^ 32
  chars : ∀ i, i ≤ text.length → fmtAt m fmt i = charAt text i
  noNul : 0 ∉ text

section
variable {m : Bytes} {fmt rounds : Nat} {args : Nat → Nat} {text front rest digits : List UInt8} {c : UInt8}

theorem Format.step (format : Format m fmt (front ++ c :: rest)) : Format m fmt (front ++ [c] ++ rest) := by
  rwa [← List.append_cons]

theorem Format.at (format : Format m fmt (front ++ rest)) : fmtAt m fmt front.length = charAt rest 0 := by
  rw [format.chars _ (by simp), charAt_append_length]

theorem Format.next (format : Format m fmt (front ++ rest)) {k : Nat} (inside : k ≤ rest.length) :
    u32 (front.length + k) = front.length + k := by
  have short := format.short
  rw [List.length_append] at short
  exact u32_of_lt (by omega)

theorem Format.charAt_ne_zero (format : Format m fmt (front ++ rest)) (more : rest ≠ []) : charAt rest 0 ≠ 0 := by
  obtain ⟨c, tail, rfl⟩ := List.exists_cons_of_ne_nil more
  rintro rfl
  exact format.noNul (by simp)

theorem Format.fmtAt_ne_zero (format : Format m fmt (front ++ c :: rest)) : fmtAt m fmt front.length ≠ 0 := by
  rw [format.at]
  exact format.charAt_ne_zero (List.cons_ne_nil c rest)

theorem kvprintfFrom_ends (format : Format m fmt (front ++ [])) (args : Nat → Nat) (rounds arg : Nat) :
    kvprintfFrom m fmt args (rounds + 1) front.length arg =
      some { out := [], arg := arg, reads := [front.length] } := by
  have nul : fmtAt m fmt front.length = 0 := format.at
  rw [kvprintfFrom, if_pos nul]

theorem kvprintfFrom_leaves (format : Format m fmt (front ++ c :: rest)) (rounds : Nat) {arg : Nat} {r : Round}
    (round : round m fmt args front.length arg = some r) (last : r.last = none) :
    kvprintfFrom m fmt args (rounds + 1) front.length arg =
      some { out := r.out, arg := r.arg, reads := front.length :: r.reads } := by
  rw [kvprintfFrom, if_neg format.fmtAt_ne_zero, round, Option.bind_some, last]

theorem kvprintfFrom_goesOn (format : Format m fmt (front ++ c :: rest)) (rounds : Nat) {arg j : Nat} {r : Round}
    (round : round m fmt args front.length arg = some r) (last : r.last = some j) :
    kvprintfFrom m fmt args (rounds + 1) front.length arg =
      (kvprintfFrom m fmt args rounds (u32 (j + 1)) r.arg).map
        fun p => { p with out := r.out ++ p.out, reads := front.length :: r.reads ++ p.reads } := by
  rw [kvprintfFrom, if_neg format.fmtAt_ne_zero, round, Option.bind_some, last]

/-- The value of a width from its digits on, as the loop computes it. -/
def widthOf (width : Int) (digits : List UInt8) : Int :=
  digits.foldl (fun w c => (w * 10 + ((c.toNat : Int) - '0'.toNat)).bmod (2 ^ 32)) width

theorem readWidth_digits (format : Format m fmt (front ++ (digits ++ rest))) (all : ∀ c ∈ digits, isDigit c = true)
    (stop : isDigit (charAt rest 0) = false) (enough : digits.length < rounds) (width : Int) :
    readWidth m fmt rounds front.length width = some
      { i := front.length + digits.length, width := widthOf width digits
        reads := List.range' front.length (digits.length + 1) } := by
  induction digits generalizing front rounds width with
  | nil =>
    obtain ⟨rounds, rfl⟩ := Nat.exists_eq_add_of_lt enough
    have here := format.at
    rw [List.nil_append] at here
    rw [List.length_nil, Nat.zero_add, readWidth, here, stop]
    rfl
  | cons c digits ih =>
    obtain ⟨rounds, rfl⟩ := Nat.exists_eq_add_of_lt enough
    have here := format.at
    rw [List.cons_append, charAt_cons_zero] at here
    have next := format.next (k := 1) (by simp)
    have tail := ih format.step (fun d member => all d (List.mem_cons_of_mem c member))
      (show digits.length < (c :: digits).length + rounds by simp; omega)
      ((width * 10 + ((c.toNat : Int) - '0'.toNat)).bmod (2 ^ 32))
    rw [List.length_append, List.length_singleton] at tail
    rw [readWidth, here, if_pos (all c List.mem_cons_self), next]
    dsimp only
    rw [tail, Option.map_some]
    simp [widthOf, List.range'_succ, Nat.add_assoc, Nat.add_comm 1]

/-- The pad character for the digits behind a `%`, the zero flag among them. -/
def padOf (digits : List UInt8) : UInt8 :=
  if digits.head? = some '0'.toUInt8 then '0'.toUInt8 else ' '.toUInt8

/-- Behind a `%` and digits, something else or the end of the text, the conversion follows. -/
theorem directive_eq (args : Nat → Nat) (format : Format m fmt (front ++ '%'.toUInt8 :: (digits ++ rest)))
    (all : ∀ c ∈ digits, isDigit c = true) (stop : isDigit (charAt rest 0) = false) (more : digits ++ rest ≠ []) :
    ∃ reads, (∀ k ∈ reads, k ≤ front.length + 1 + digits.length) ∧
      ∀ arg, directive m fmt args front.length arg = conversion m fmt args (padOf digits)
        { i := front.length + 1 + digits.length, width := widthOf 0 digits, reads := reads } arg := by
  have next := format.next (k := 1) (by simp)
  have behind := format.step
  have length : (front ++ ['%'.toUInt8]).length = front.length + 1 := by simp
  have here := behind.at
  rw [length] at here
  have nonzero := behind.charAt_ne_zero more
  by_cases zero : charAt (digits ++ rest) 0 = '0'.toUInt8
  · cases digits with
    | nil =>
      rw [List.nil_append] at zero
      rw [zero] at stop
      exact absurd stop (by decide)
    | cons c digits =>
      obtain rfl : c = '0'.toUInt8 := zero
      have next' := format.next (k := 2) (by simp)
      have later : Format m fmt (front ++ ['%'.toUInt8, '0'.toUInt8] ++ (digits ++ rest)) := by simpa using format
      have width := readWidth_digits later (fun d member => all d (List.mem_cons_of_mem _ member)) stop
        (show digits.length < 2 ^ 32 by have short := format.short; simp at short; omega) 0
      have two : (front ++ ['%'.toUInt8, '0'.toUInt8]).length = front.length + 2 := by simp
      rw [two] at width
      refine ⟨(front.length + 1) :: List.range' (front.length + 2) (digits.length + 1), ?_, fun arg => ?_⟩
      · intro k member
        simp only [List.mem_cons, List.mem_range'_1, List.length_cons] at member ⊢
        omega
      · rw [directive, next]
        dsimp only
        rw [here, if_neg nonzero, List.cons_append, charAt_cons_zero, if_pos rfl, if_pos rfl, Nat.add_assoc, next',
          width, Option.bind_some, padOf, List.head?_cons, if_pos rfl]
        simp only [widthOf, List.foldl_cons, List.length_cons]
        rw [show front.length + 2 + digits.length = front.length + 1 + (digits.length + 1) by omega]
        rfl
  · have first : digits.head? ≠ some '0'.toUInt8 := by
      intro head
      cases digits with
      | nil => cases head
      | cons c digits => exact zero (Option.some.inj head)
    have width := readWidth_digits behind all stop
      (show digits.length < 2 ^ 32 by have short := format.short; simp at short; omega) 0
    rw [length] at width
    refine ⟨(front.length + 1) :: List.range' (front.length + 1) (digits.length + 1), ?_, fun arg => ?_⟩
    · intro k member
      simp only [List.mem_cons, List.mem_range'_1] at member
      omega
    · rw [directive, next]
      dsimp only
      rw [here, if_neg nonzero, if_neg zero, if_neg zero, width, Option.bind_some, padOf, if_neg first]

end

/-- A memory with some bytes at 4096 and zeros around them. -/
def bytesMemory (bytes : List UInt8) : Bytes := fun a => if a < 4096 then 0 else bytes.getD (a - 4096) 0

/-- A text alone in such a memory is a format. -/
theorem bytesMemory_format {text : List UInt8} (short : 4096 + text.length < 2 ^ 32) (noNul : 0 ∉ text) :
    Format (bytesMemory text) 4096 text := by
  refine ⟨by omega, fun i inside => ?_, noNul⟩
  rw [fmtAt, u32_of_lt (by omega), bytesMemory, if_neg (by omega), Nat.add_sub_cancel_left]
  rfl

end Kprintf

end LearningOS
