import LearningOS.Io.FormatReads

namespace LearningOS
open ByteStore NulText

namespace Kprintf

/-- The conversions a directive may end in. -/
inductive Conversion
  | c
  | s
  | d
  | u
  | x
  | X
  | p
  | llu
  | percent
  deriving DecidableEq

namespace Conversion

def letters : Conversion → List UInt8
  | c => ['c'.toUInt8]
  | s => ['s'.toUInt8]
  | d => ['d'.toUInt8]
  | u => ['u'.toUInt8]
  | x => ['x'.toUInt8]
  | X => ['X'.toUInt8]
  | p => ['p'.toUInt8]
  | llu => ['l', 'l', 'u'].map Char.toUInt8
  | percent => ['%'.toUInt8]

/-- How many words the argument of a conversion has. -/
def words : Conversion → Nat
  | percent => 0
  | llu => 2
  | _ => 1

/-- What a conversion prints, by the words of its argument and the string that it points to. -/
def prints (conv : Conversion) (string : List UInt8) (low high : Nat) (width : Int) (pad : UInt8) : List UInt8 :=
  match conv with
  | c => [UInt8.ofNat low]
  | s => printString string width pad
  | d => printIntDecimal (toInt32 low) width pad
  | u => printUintBase low 10 width pad false
  | x | X => printUintBase low 16 width pad true
  | p =>
    '0'.toUInt8 :: 'x'.toUInt8 ::
      printUintBase low 16 (if width ≠ 0 then width else 8) (if width = 0 then '0'.toUInt8 else pad) true
  | llu => printUintBase (low + 2 ^ 32 * high) 10 width pad false
  | percent => ['%'.toUInt8]

end Conversion

/-- The number that some digits stand for, behind others. -/
def digitsValue (before : Nat) (digits : List UInt8) : Nat :=
  digits.foldl (fun w c => w * 10 + (c.toNat - '0'.toNat)) before

/-- A piece of a format: a character, or a directive with the zero flag or without it and with a
width that fits an `int`. -/
inductive Piece
  | char (c : UInt8) (plain : c ≠ '%'.toUInt8) (notNul : c ≠ 0)
  | directive (zero : Bool) (width : List UInt8) (digits : ∀ c ∈ width, isDigit c = true)
      (fits : digitsValue 0 width < 2 ^ 31) (conv : Conversion)

namespace Piece

/-- What stands between the `%` and the conversion. -/
def flagWidth (zero : Bool) (width : List UInt8) : List UInt8 := (if zero then ['0'.toUInt8] else []) ++ width

def text : Piece → List UInt8
  | char c _ _ => [c]
  | directive zero width _ _ conv => '%'.toUInt8 :: (flagWidth zero width ++ conv.letters)

def words : Piece → Nat
  | char _ _ _ => 0
  | directive _ _ _ _ conv => conv.words

/-- What a piece prints whose argument begins with the word `arg`. -/
def prints (m : Bytes) (args : Nat → Nat) (arg : Nat) : Piece → List UInt8
  | char c _ _ => [c]
  | directive zero width _ _ conv =>
    conv.prints ((stringArgument m (u32 (args arg))).getD []) (u32 (args arg)) (u32 (args (arg + 1)))
      (digitsValue 0 width) (padOf (flagWidth zero width))

def ReadsString : Piece → Prop
  | char _ _ _ => False
  | directive _ _ _ _ conv => conv = .s

/-- The words of the piece's argument are passed first, and a string is the same string. -/
structure OwnArgument (piece : Piece) (m : Bytes) (args : Nat → Nat) (arg : Nat) (m' : Bytes) (args' : Nat → Nat) :
    Prop where
  words : ∀ k, k < piece.words → u32 (args' k) = u32 (args (arg + k))
  string : piece.ReadsString → stringArgument m' (u32 (args' 0)) = stringArgument m (u32 (args arg))

end Piece

/-- What a run prints and how many words it takes, however many rounds it may have. -/
structure Prints (m : Bytes) (fmt : Nat) (args : Nat → Nat) (out : List UInt8) (taken : Nat) : Prop where
  returns : ∃ rounds p, kvprintf m fmt args rounds = some p
  printed : ∀ rounds p, kvprintf m fmt args rounds = some p → p.out = out ∧ p.arg = taken

def formatText (pieces : List Piece) : List UInt8 := pieces.flatMap Piece.text

def formatWords (pieces : List Piece) : Nat := (pieces.map Piece.words).sum

/-- What the pieces print, one after the other. -/
def printedPieces (m : Bytes) (args : Nat → Nat) : Nat → List Piece → List (List UInt8)
  | _, [] => []
  | arg, piece :: pieces => piece.prints m args arg :: printedPieces m args (arg + piece.words) pieces

/-- A round of the loop takes a piece and its argument, and the loop goes on behind them. -/
def TakesPiece (m : Bytes) (fmt : Nat) (args : Nat → Nat) (i arg : Nat) (piece : Piece) (out : List UInt8) : Prop :=
  ∃ r j, round m fmt args i arg = some r ∧ r.last = some j ∧ u32 (j + 1) = i + piece.text.length ∧ r.out = out ∧
    r.arg = arg + piece.words

section
variable {m m' : Bytes} {fmt rounds i arg : Nat} {args args' : Nat → Nat} {text front rest : List UInt8}
  {piece : Piece} {pieces before after : List Piece}

theorem Piece.flagWidth_isDigit (zero : Bool) {width : List UInt8} (digits : ∀ c ∈ width, isDigit c = true) :
    ∀ c ∈ flagWidth zero width, isDigit c = true := by
  intro c member
  rcases List.mem_append.mp member with flag | member
  · cases zero with
    | false => cases flag
    | true => cases List.mem_singleton.mp flag; rfl
  · exact digits c member

theorem digitsValue_le (w : Nat) (digits : List UInt8) : w ≤ digitsValue w digits := by
  induction digits generalizing w with
  | nil => exact Nat.le_refl w
  | cons c digits ih => exact Nat.le_trans (by omega) (ih (w * 10 + (c.toNat - '0'.toNat)))

/-- A width that fits an `int` does not wrap around. -/
theorem widthOf_digits {digits : List UInt8} (all : ∀ c ∈ digits, isDigit c = true) {w : Nat}
    (fits : digitsValue w digits < 2 ^ 31) : widthOf w digits = digitsValue w digits := by
  induction digits generalizing w with
  | nil => rfl
  | cons c digits ih =>
    have digit := all c List.mem_cons_self
    have low : '0'.toNat ≤ c.toNat := by
      simp only [isDigit, Bool.and_eq_true, decide_eq_true_eq] at digit
      exact digit.1
    have less : w * 10 + (c.toNat - '0'.toNat) < 2 ^ 31 := Nat.lt_of_le_of_lt (digitsValue_le _ digits) fits
    have step : ((w : Int) * 10 + ((c.toNat : Int) - ('0'.toNat : Int))).bmod (2 ^ 32) =
        ((w * 10 + (c.toNat - '0'.toNat) : Nat) : Int) := by
      rw [show (w : Int) * 10 + ((c.toNat : Int) - ('0'.toNat : Int)) =
        ((w * 10 + (c.toNat - '0'.toNat) : Nat) : Int) by omega, Int.bmod_def]
      split <;> omega
    have tail := ih (fun d member => all d (List.mem_cons_of_mem c member)) fits
    rw [widthOf, List.foldl_cons, step]
    exact tail

/-- The zero flag adds nothing to the width. -/
theorem Piece.widthOf_flagWidth (zero : Bool) {width : List UInt8} (digits : ∀ c ∈ width, isDigit c = true)
    (fits : digitsValue 0 width < 2 ^ 31) : widthOf 0 (flagWidth zero width) = digitsValue 0 width := by
  have flag : widthOf 0 (flagWidth zero width) = widthOf 0 width := by cases zero <;> rfl
  exact flag.trans (widthOf_digits digits fits)

theorem Conversion.letters_stop (conv : Conversion) (rest : List UInt8) :
    isDigit (charAt (conv.letters ++ rest) 0) = false := by
  cases conv <;> rfl

theorem Piece.text_cons (piece : Piece) : ∃ c tail, piece.text = c :: tail := by
  cases piece with
  | char c => exact ⟨c, [], rfl⟩
  | directive => exact ⟨_, _, rfl⟩

/-- The body of the loop behind the width, where it ends in the `switch`. -/
theorem conversion_switch {c : UInt8} (notLong : c ≠ 'l'.toUInt8) (format : Format m fmt (front ++ c :: rest))
    {width : Int} {pad : UInt8} {out : List UInt8} {next : Nat} (reads : List Nat)
    (switch : convert m args c width pad arg = some (out, next)) :
    ∃ r, conversion m fmt args pad { i := front.length, width := width, reads := reads } arg = some r ∧
      r.last = some front.length ∧ r.out = out ∧ r.arg = next := by
  have here : fmtAt m fmt front.length = c := format.at
  rw [conversion]
  dsimp only
  rw [here, if_neg (fun both => notLong both.1), switch]
  exact ⟨_, rfl, rfl, rfl, rfl⟩

/-- The body of the loop behind the width, by the conversion. -/
theorem conversion_prints (conv : Conversion) (format : Format m fmt (front ++ (conv.letters ++ rest)))
    (args : Nat → Nat) (pad : UInt8) (width : Int) (reads : List Nat) (arg : Nat) :
    ∃ r j, conversion m fmt args pad { i := front.length, width := width, reads := reads } arg = some r ∧
      r.last = some j ∧ j + 1 = front.length + conv.letters.length ∧
      r.out = conv.prints ((stringArgument m (u32 (args arg))).getD []) (u32 (args arg)) (u32 (args (arg + 1)))
        width pad ∧
      r.arg = arg + conv.words := by
  cases conv with
  | llu =>
    have long : Format m fmt (front ++ 'l'.toUInt8 :: 'l'.toUInt8 :: 'u'.toUInt8 :: rest) := format
    exact ⟨_, _, conversion_ll args long pad width reads arg, rfl, rfl, rfl, rfl⟩
  | s =>
    obtain ⟨string, found⟩ := format.string (u32 (args arg))
    have switch : convert m args 's'.toUInt8 width pad arg = some (printString string width pad, arg + 1) :=
      congrArg (Option.map fun s => (printString s width pad, arg + 1)) found
    obtain ⟨r, done, last, out, next⟩ := conversion_switch (by decide) format reads switch
    exact ⟨r, _, done, last, rfl, by rw [out, found]; rfl, next⟩
  | _ =>
    obtain ⟨r, done, last, out, next⟩ := conversion_switch (by decide) format reads rfl
    exact ⟨r, _, done, last, rfl, out, next⟩

theorem round_piece (piece : Piece) (format : Format m fmt (front ++ (piece.text ++ rest))) (args : Nat → Nat)
    (arg : Nat) :
    TakesPiece m fmt args front.length arg piece (piece.prints m args arg) := by
  cases piece with
  | char c plain notNul =>
    have here : fmtAt m fmt front.length = c := format.at
    refine ⟨_, front.length, by rw [round, here, if_pos plain], rfl, format.next (by simp [Piece.text]), rfl, rfl⟩
  | directive zero width digits fits conv =>
    have whole : Format m fmt (front ++ '%'.toUInt8 :: (Piece.flagWidth zero width ++ (conv.letters ++ rest))) := by
      simpa [Piece.text] using format
    have later : Format m fmt (front ++ '%'.toUInt8 :: Piece.flagWidth zero width ++ (conv.letters ++ rest)) := by
      simpa using whole
    have length : front.length + 1 + (Piece.flagWidth zero width).length =
        (front ++ '%'.toUInt8 :: Piece.flagWidth zero width).length := by simp; omega
    obtain ⟨reads, _, behind⟩ := directive_eq args whole (Piece.flagWidth_isDigit zero digits) (conv.letters_stop rest)
      (by cases conv <;> simp [Conversion.letters])
    obtain ⟨r, j, done, last, next, out, taken⟩ := conversion_prints conv later args
      (padOf (Piece.flagWidth zero width)) (digitsValue 0 width) reads arg
    refine ⟨r, j, ?_, last, ?_, out, taken⟩
    · rw [round, whole.at, charAt_cons_zero, if_neg (by decide), behind, length,
        Piece.widthOf_flagWidth zero digits fits, done]
    · have place : j + 1 = front.length + (Piece.directive zero width digits fits conv).text.length := by
        simp [next, Piece.text]
        omega
      rw [place]
      exact format.next (by simp)

/-- A run from a piece on goes through it and all that follow. -/
theorem kvprintfFrom_pieces (format : Format m fmt (front ++ formatText pieces)) (args : Nat → Nat)
    (enough : pieces.length < rounds) (arg : Nat) :
    ∃ p, kvprintfFrom m fmt args rounds front.length arg = some p ∧
      p.out = (printedPieces m args arg pieces).flatten ∧ p.arg = arg + formatWords pieces := by
  obtain ⟨rounds, rfl⟩ : ∃ k, rounds = k + 1 := ⟨rounds - 1, by omega⟩
  induction pieces generalizing front arg rounds with
  | nil => exact ⟨_, kvprintfFrom_ends format args rounds arg, rfl, rfl⟩
  | cons piece pieces ih =>
    obtain ⟨r, j, done, last, next, out, taken⟩ := round_piece piece format args arg
    obtain ⟨c, tail, first⟩ := piece.text_cons
    have whole : Format m fmt (front ++ c :: (tail ++ formatText pieces)) := by
      simpa [formatText, first] using format
    have later : Format m fmt (front ++ piece.text ++ formatText pieces) := by simpa [formatText] using format
    rw [← List.length_append] at next
    obtain ⟨rounds, rfl⟩ : ∃ k, rounds = k + 1 := ⟨rounds - 1, by simp at enough; omega⟩
    obtain ⟨p, run, printed, words⟩ := ih later r.arg rounds (by simpa using enough)
    refine ⟨_, by rw [kvprintfFrom_goesOn whole _ done last, next, run]; rfl, ?_, ?_⟩
    · dsimp only
      rw [printed, out, taken, printedPieces, List.flatten_cons]
    · rw [words, taken, formatWords, formatWords, List.map_cons, List.sum_cons, Nat.add_assoc]

/-- With more rounds there is no other result. -/
theorem kvprintfFrom_more {p : Printed} (run : kvprintfFrom m fmt args rounds i arg = some p) (more : Nat) :
    kvprintfFrom m fmt args (rounds + more) i arg = some p := by
  induction rounds generalizing i arg p with
  | zero => cases run
  | succ rounds ih =>
    rw [Nat.succ_add, kvprintfFrom]
    rw [kvprintfFrom] at run
    split
    · rwa [if_pos ‹_›] at run
    rw [if_neg ‹_›] at run
    obtain ⟨r, done, rest⟩ := Option.bind_eq_some_iff.mp run
    rw [done, Option.bind_some]
    cases last : r.last with
    | none => rwa [last] at rest
    | some j =>
      rw [last] at rest
      obtain ⟨p', inner, rfl⟩ := Option.map_eq_some_iff.mp rest
      exact congrArg (Option.map _) (ih inner)

theorem prints_of_run {p : Printed} (run : kvprintf m fmt args rounds = some p) : Prints m fmt args p.out p.arg := by
  refine ⟨⟨rounds, p, run⟩, fun rounds' q run' => ?_⟩
  have more := kvprintfFrom_more run rounds'
  have more' := kvprintfFrom_more run' rounds
  rw [Nat.add_comm, more] at more'
  cases more'
  exact ⟨rfl, rfl⟩

/-- A format of pieces prints what the pieces do, and takes the words of all of them. -/
theorem prints_pieces (format : Format m fmt (formatText pieces)) (args : Nat → Nat) :
    Prints m fmt args (printedPieces m args 0 pieces).flatten (formatWords pieces) := by
  have whole : Format m fmt ([] ++ formatText pieces) := format
  obtain ⟨p, run, out, taken⟩ := kvprintfFrom_pieces whole args (Nat.lt_succ_self _) 0
  rw [← out, ← Nat.zero_add (formatWords pieces), ← taken]
  exact prints_of_run run

/-- What a piece prints it prints of its own argument. -/
theorem Piece.OwnArgument.prints (own : piece.OwnArgument m args arg m' args') :
    piece.prints m' args' 0 = piece.prints m args arg := by
  obtain ⟨words, string⟩ := own
  cases piece with
  | char => rfl
  | directive zero width digits fits conv =>
    cases conv with
    | percent => rfl
    | s =>
      have same := string rfl
      simp only [Piece.prints, Conversion.prints, same]
    | llu =>
      have low := words 0 Nat.two_pos
      have high := words 1 Nat.one_lt_two
      simp only [Piece.prints, Conversion.prints, low, high, Nat.add_zero, Nat.zero_add]
    | _ =>
      have low := words 0 Nat.one_pos
      simp only [Piece.prints, Conversion.prints, low, Nat.add_zero]

theorem Piece.OwnArgument.alone (own : piece.OwnArgument m args arg m' args') {fmt' : Nat}
    (format : Format m' fmt' piece.text) : Prints m' fmt' args' (piece.prints m args arg) piece.words := by
  have single : Format m' fmt' (formatText [piece]) := by simpa [formatText] using format
  simpa [printedPieces, formatWords, own.prints] using prints_pieces single args'

theorem printedPieces_length (m : Bytes) (args : Nat → Nat) (arg : Nat) (pieces : List Piece) :
    (printedPieces m args arg pieces).length = pieces.length := by
  induction pieces generalizing arg with
  | nil => rfl
  | cons piece pieces ih => exact congrArg (· + 1) (ih _)

theorem printedPieces_get (m : Bytes) (args : Nat → Nat) (arg : Nat) (before after : List Piece) (piece : Piece) :
    (printedPieces m args arg (before ++ piece :: after))[before.length]? =
      some (piece.prints m args (arg + formatWords before)) := by
  induction before generalizing arg with
  | nil => rfl
  | cons first before ih =>
    have total : formatWords (first :: before) = first.words + formatWords before := List.sum_cons
    rw [total, ← Nat.add_assoc]
    exact ih (arg + first.words)

/-- Formatting is compositional: a format of pieces prints, one after the other, what each of them
prints alone with its own argument, and takes the arguments of the pieces one after the other. -/
theorem kvprintf_compositional (format : Format m fmt (formatText pieces)) (args : Nat → Nat) :
    ∃ outs : List (List UInt8), outs.length = pieces.length ∧ Prints m fmt args outs.flatten (formatWords pieces) ∧
      ∀ before piece after, pieces = before ++ piece :: after → ∃ out, outs[before.length]? = some out ∧
        TakesPiece m fmt args (formatText before).length (formatWords before) piece out ∧
        ∀ m' fmt' args', Format m' fmt' piece.text → piece.OwnArgument m args (formatWords before) m' args' →
          Prints m' fmt' args' out piece.words := by
  refine ⟨printedPieces m args 0 pieces, printedPieces_length m args 0 pieces, prints_pieces format args, ?_⟩
  rintro before piece after rfl
  have here : Format m fmt (formatText before ++ (piece.text ++ formatText after)) := by
    simpa [formatText] using format
  refine ⟨_, printedPieces_get m args 0 before after piece, ?_, fun m' fmt' args' alone own => ?_⟩
  · rw [Nat.zero_add]
    exact round_piece piece here args (formatWords before)
  · rw [Nat.zero_add]
    exact own.alone alone

end

/-- `=%05u%%`, in pieces. -/
def valuePieces : List Piece :=
  [.char '='.toUInt8 (by decide) (by decide), .directive true ['5'.toUInt8] (by simp; rfl) (by decide +kernel) .u,
    .directive false [] (by simp) (by decide +kernel) .percent]

def valueMemory : Bytes := bytesMemory (formatText valuePieces)

theorem valueMemory_format : Format valueMemory 4096 (formatText valuePieces) :=
  bytesMemory_format (by decide) (by decide)

theorem kvprintf_compositional_value :
    ∃ outs : List (List UInt8), outs.length = valuePieces.length ∧
      Prints valueMemory 4096 (fun _ => 42) outs.flatten (formatWords valuePieces) ∧
      ∀ before piece after, valuePieces = before ++ piece :: after → ∃ out, outs[before.length]? = some out ∧
        TakesPiece valueMemory 4096 (fun _ => 42) (formatText before).length (formatWords before) piece out ∧
        ∀ m' fmt' args', Format m' fmt' piece.text →
          piece.OwnArgument valueMemory (fun _ => 42) (formatWords before) m' args' →
          Prints m' fmt' args' out piece.words :=
  kvprintf_compositional valueMemory_format _

example : printedPieces valueMemory (fun _ => 42) 0 valuePieces =
    [['='], ['0', '0', '0', '4', '2'], ['%']].map (List.map Char.toUInt8) := by decide +kernel

end Kprintf

end LearningOS
