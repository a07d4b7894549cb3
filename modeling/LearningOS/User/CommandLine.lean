import LearningOS.Fat.Model
import LearningOS.Store.Scans
import Mathlib.Data.List.DropRight

namespace LearningOS
open NulText ByteStore

def doubleQuote : UInt8 := 34

/-- A space or a tab. -/
def isBlank (c : UInt8) : Bool := c = 32 || c = 9

/-- What `rtrim` takes off: a blank, CR or LF. -/
def isTrailing (c : UInt8) : Bool := c = 32 || c = 9 || c = 13 || c = 10

namespace CommandLine

def ltrim (text : List UInt8) (s : Nat) : Nat := skipWhile isBlank (by decide) text s

def strlen (text : List UInt8) (s : Nat) : Nat := u32 (skipWhile (· ≠ 0) (by decide) text s - s)

def rtrimFrom (text : List UInt8) (s : Nat) (i : Int) : List UInt8 :=
  if i ≥ 0 ∧ isTrailing (charAt text (s + i.toNat)) then rtrimFrom (text.set (s + i.toNat) 0) s (i - 1) else text
termination_by (i + 1).toNat

def rtrim (text : List UInt8) (s : Nat) : List UInt8 := rtrimFrom text s (toInt32 (strlen text s) - 1)

/-- Where an argument begins, the line with its closing quote gone, and the cursor behind it. -/
structure Token where
  start : Nat
  text : List UInt8
  p : Nat

/-- The branches of the loop of `parse_line`. -/
def takeToken (text : List UInt8) (p : Nat) : Token :=
  if charAt text p = doubleQuote then
    let start := p + 1
    let p := skipWhile (fun c => c ≠ 0 && c ≠ doubleQuote) (by decide) text start
    if charAt text p = doubleQuote then { start := start, text := text.set p 0, p := p + 1 }
    else { start := start, text := text, p := p }
  else { start := p, text := text, p := skipWhile (fun c => c ≠ 0 && !isBlank c) (by decide) text p }

/-- The line buffer and the pointers stored in `argv`, as many as `argc`. -/
structure Parsed where
  text : List UInt8
  argv : List Nat

/-- The loop of `parse_line`. -/
def parseTokens (maxArgs : Int) (text : List UInt8) (p : Nat) (argv : List Nat) : Parsed :=
  if charAt text p ≠ 0 ∧ (argv.length : Int) < maxArgs then
    let token := takeToken text p
    let (text, p) := clearWhile isBlank (by decide) token.text token.p
    parseTokens maxArgs text p (argv ++ [token.start])
  else { text := text, argv := argv }
termination_by (maxArgs - argv.length).toNat
decreasing_by
  rw [List.length_append, List.length_singleton]
  omega

/-- `parse_line` on a buffer that holds a line, its NUL and whatever follows. -/
def parseLine (line : List UInt8) (maxArgs : Int) : Parsed :=
  let p := ltrim line 0
  let line := rtrim line p
  if charAt line p = 0 then { text := line, argv := [] } else parseTokens maxArgs line p []

def AllBlank (gap : List UInt8) : Prop := ∀ c ∈ gap, isBlank c = true

def Quotable (arg : List UInt8) : Prop := 0 ∉ arg ∧ doubleQuote ∉ arg

def Bare (arg : List UInt8) : Prop :=
  arg ≠ [] ∧ arg.head? ≠ some doubleQuote ∧ 0 ∉ arg ∧ ∀ c ∈ arg, isBlank c = false

/-- The ways to write arguments from the first one on, each in quotes or bare. -/
inductive Renders : List (List UInt8) → List UInt8 → Prop
  | done {trail : List UInt8} (trailing : ∀ c ∈ trail, isTrailing c = true) : Renders [] trail
  | quoted {arg gap rest : List UInt8} {args : List (List UInt8)} (clean : Quotable arg) (blank : AllBlank gap)
      (tail : Renders args rest) : Renders (arg :: args) (doubleQuote :: (arg ++ doubleQuote :: (gap ++ rest)))
  | bare {arg gap rest : List UInt8} {args : List (List UInt8)} (clean : Bare arg) (blank : AllBlank gap)
      (apart : gap ≠ []) (more : args ≠ []) (tail : Renders args rest) :
      Renders (arg :: args) (arg ++ (gap ++ rest))
  | last {arg trail : List UInt8} (clean : Bare arg) (closed : arg.getLast? ≠ some 13 ∧ arg.getLast? ≠ some 10)
      (trailing : ∀ c ∈ trail, isTrailing c = true) : Renders [arg] (arg ++ trail)

/-- A line in which the arguments are written, with blanks before them. -/
def RendersLine (args : List (List UInt8)) (line : List UInt8) : Prop :=
  ∃ lead body, AllBlank lead ∧ Renders args body ∧ line = lead ++ body

/-- A pointer into a buffer at which a string begins that ends in the buffer. -/
def PointsTo (text : List UInt8) (p : Nat) (arg : List UInt8) : Prop :=
  0 ∉ arg ∧ ∃ front rest, text = front ++ (arg ++ 0 :: rest) ∧ front.length = p

/-- From a cursor on, the arguments are found that there is still room for; the line stays as
long as it is, and what is before the cursor and behind the line stays. -/
def Splits (maxArgs : Int) (args : List (List UInt8)) (trimmed front rest : List UInt8) (argv : List Nat) : Prop :=
  ∃ mid ptrs, mid.length = trimmed.length ∧
    parseTokens maxArgs (front ++ (trimmed ++ 0 :: rest)) front.length argv =
      { text := front ++ (mid ++ 0 :: rest), argv := argv ++ ptrs } ∧
    List.Forall₂ (PointsTo (front ++ (mid ++ 0 :: rest))) ptrs (args.take (maxArgs - argv.length).toNat)

section
variable {maxArgs : Int} {text front gap next rest arg body trail : List UInt8} {args : List (List UInt8)}
  {argv : List Nat} {p start : Nat}

theorem isTrailing_of_isBlank {c : UInt8} (blank : isBlank c = true) : isTrailing c = true := by
  simp only [isBlank, isTrailing, Bool.or_eq_true] at blank ⊢
  exact Or.inl (Or.inl blank)

theorem rtrimFrom_append (text front rest : List UInt8) :
    ∃ k, k + (text.rdropWhile isTrailing).length = text.length ∧
      rtrimFrom (front ++ (text ++ 0 :: rest)) front.length (text.length - 1) =
        front ++ (text.rdropWhile isTrailing ++ 0 :: (List.replicate k 0 ++ rest)) := by
  induction text using List.reverseRecOn generalizing rest with
  | nil =>
    refine ⟨0, rfl, ?_⟩
    rw [rtrimFrom, if_neg (by simp)]
    rfl
  | append_singleton text c ih =>
    have last : ((text ++ [c]).length : Int) - 1 = text.length := by simp
    have here : charAt (front ++ (text ++ [c] ++ 0 :: rest)) (front.length + text.length) = c := by
      rw [List.append_assoc, ← List.append_assoc, ← List.length_append, charAt_append_length]
      rfl
    rw [rtrimFrom, last, Int.toNat_natCast, here]
    by_cases trailing : isTrailing c = true
    · obtain ⟨k, length, trimmed⟩ := ih (0 :: rest)
      have cleared : (front ++ (text ++ [c] ++ 0 :: rest)).set (front.length + text.length) 0 =
          front ++ (text ++ 0 :: 0 :: rest) := by
        have set := set_append_length (front ++ text) (0 :: rest) c 0
        rw [List.length_append, List.append_assoc, List.append_assoc] at set
        rw [← set, List.append_assoc text [c], List.singleton_append]
      rw [if_pos ⟨Int.natCast_nonneg _, trailing⟩, cleared, trimmed, List.rdropWhile_concat_pos _ _ _ trailing]
      refine ⟨k + 1, by rw [List.length_append, List.length_singleton]; omega, ?_⟩
      rw [List.replicate_succ', List.append_assoc, List.singleton_append]
    · rw [if_neg (fun both => trailing both.2), List.rdropWhile_concat_neg _ _ _ trailing]
      exact ⟨0, Nat.zero_add _, rfl⟩

theorem rtrim_append (noNul : 0 ∉ text) (short : text.length < 2 ^ 31) (front rest : List UInt8) :
    ∃ k, k + (text.rdropWhile isTrailing).length = text.length ∧ rtrim (front ++ (text ++ 0 :: rest)) front.length =
      front ++ (text.rdropWhile isTrailing ++ 0 :: (List.replicate k 0 ++ rest)) := by
  have nonzero : ∀ c ∈ text, (c ≠ 0 : Bool) = true := fun c member => by
    simpa using fun zero : c = 0 => noNul (zero ▸ member)
  have length : strlen (front ++ (text ++ 0 :: rest)) front.length = text.length := by
    rw [strlen, skipWhile_append nonzero rfl, Nat.add_sub_cancel_left, u32_of_lt (by omega)]
  rw [rtrim, length, toInt32, if_pos short]
  exact rtrimFrom_append text front rest

theorem takeToken_quoted (clean : Quotable arg) (front rest : List UInt8) :
    takeToken (front ++ (doubleQuote :: (arg ++ doubleQuote :: rest))) front.length =
      { start := front.length + 1, text := front ++ (doubleQuote :: (arg ++ 0 :: rest))
        p := front.length + 1 + arg.length + 1 } := by
  have inside : ∀ c ∈ arg, (c ≠ 0 && c ≠ doubleQuote) = true := fun c member => by
    have notNul : c ≠ 0 := fun zero => clean.1 (zero ▸ member)
    have notQuote : c ≠ doubleQuote := fun quote => clean.2 (quote ▸ member)
    simp [notNul, notQuote]
  have scan : skipWhile (fun c => c ≠ 0 && c ≠ doubleQuote) (by decide)
      (front ++ [doubleQuote] ++ (arg ++ doubleQuote :: rest)) (front ++ [doubleQuote]).length = _ :=
    skipWhile_append inside rfl
  have split : front ++ (doubleQuote :: (arg ++ doubleQuote :: rest)) =
      front ++ [doubleQuote] ++ arg ++ doubleQuote :: rest := by simp
  have length : (front ++ [doubleQuote] ++ arg).length = front.length + 1 + arg.length := by
    rw [List.length_append, List.length_append, List.length_singleton]
  rw [List.append_assoc, List.singleton_append, List.length_append, List.length_singleton] at scan
  rw [takeToken, charAt_append_length, charAt_cons_zero, if_pos rfl]
  dsimp only
  rw [scan, split, ← length, charAt_append_length, charAt_cons_zero, if_pos rfl, set_append_length]
  simp

theorem takeToken_bare (clean : Bare arg) (front : List UInt8)
    (ends : charAt rest 0 = 0 ∨ isBlank (charAt rest 0) = true) :
    takeToken (front ++ (arg ++ rest)) front.length =
      { start := front.length, text := front ++ (arg ++ rest), p := front.length + arg.length } := by
  obtain ⟨nonempty, first, noNul, noBlank⟩ := clean
  have inside : ∀ c ∈ arg, (c ≠ 0 && !isBlank c) = true := fun c member => by
    have notNul : c ≠ 0 := fun zero => noNul (zero ▸ member)
    simp [notNul, noBlank c member]
  have last : (charAt rest 0 ≠ 0 && !isBlank (charAt rest 0)) = false := by
    rcases ends with zero | blank
    · simp [zero]
    · simp [blank]
  have here : charAt (front ++ (arg ++ rest)) front.length ≠ doubleQuote := by
    obtain ⟨c, tail, rfl⟩ := List.exists_cons_of_ne_nil nonempty
    rw [charAt_append_length, List.cons_append, charAt_cons_zero]
    simpa using first
  rw [takeToken, if_neg here, skipWhile_append inside last]

theorem parseTokens_stop (ends : charAt text p = 0 ∨ maxArgs ≤ argv.length) :
    parseTokens maxArgs text p argv = { text := text, argv := argv } := by
  rw [parseTokens, if_neg]
  rintro ⟨more, room⟩
  rcases ends with zero | full
  · exact more zero
  · omega

/-- One round of the loop: the token, then NULs over the blanks behind it. -/
theorem parseTokens_round (more : charAt text p ≠ 0) (room : (argv.length : Int) < maxArgs)
    (token : takeToken text p = { start := start, text := front ++ (gap ++ next), p := front.length })
    (blank : AllBlank gap) (last : isBlank (charAt next 0) = false) :
    parseTokens maxArgs text p argv =
      parseTokens maxArgs (front ++ List.replicate gap.length 0 ++ next)
        (front ++ List.replicate gap.length 0).length (argv ++ [start]) := by
  rw [parseTokens, if_pos ⟨more, room⟩, token]
  dsimp only
  rw [clearWhile_append blank last]
  dsimp only
  rw [List.append_assoc, List.length_append, List.length_replicate]

theorem Splits.stop {trimmed : List UInt8} (ends : (trimmed = [] ∧ args = []) ∨ maxArgs ≤ argv.length) :
    Splits maxArgs args trimmed front rest argv := by
  refine ⟨trimmed, [], rfl, ?_, ?_⟩
  · rw [parseTokens_stop, List.append_nil]
    rcases ends with ⟨rfl, _⟩ | full
    · exact Or.inl (by rw [charAt_append_length]; rfl)
    · exact Or.inr full
  · rcases ends with ⟨_, rfl⟩ | full
    · rw [List.take_nil]
      exact .nil
    · rw [Int.toNat_of_nonpos (by omega), List.take_zero]
      exact .nil

/-- One argument in front of what is split already. -/
theorem Splits.token (written shown : List UInt8) (start : Nat) {left : List UInt8} (more : charAt written 0 ≠ 0)
    (nonempty : written ≠ [])
    (token : takeToken (front ++ (written ++ (gap ++ (left ++ 0 :: rest)))) front.length =
      { start := start, text := front ++ (shown ++ (gap ++ (left ++ 0 :: rest))), p := front.length + shown.length })
    (same : shown.length = written.length) (blank : AllBlank gap)
    (last : isBlank (charAt (left ++ 0 :: rest) 0) = false)
    (points : ∀ mid : List UInt8, mid.length = left.length →
      PointsTo (front ++ (shown ++ (List.replicate gap.length 0 ++ (mid ++ 0 :: rest)))) start arg)
    (tail : Splits maxArgs args left (front ++ shown ++ List.replicate gap.length 0) rest (argv ++ [start])) :
    Splits maxArgs (arg :: args) (written ++ (gap ++ left)) front rest argv := by
  by_cases full : maxArgs ≤ argv.length
  · exact Splits.stop (Or.inr full)
  obtain ⟨mid, ptrs, length, run, pointers⟩ := tail
  have room : (maxArgs - argv.length).toNat = (maxArgs - (argv ++ [start]).length).toNat + 1 := by
    rw [List.length_append, List.length_singleton]
    omega
  have here : charAt (front ++ (written ++ (gap ++ (left ++ 0 :: rest)))) front.length ≠ 0 := by
    obtain ⟨c, tail, rfl⟩ := List.exists_cons_of_ne_nil nonempty
    rwa [charAt_append_length]
  rw [← List.length_append, ← List.append_assoc front shown] at token
  have round := parseTokens_round here (Int.not_le.mp full) token blank last
  refine ⟨shown ++ (List.replicate gap.length 0 ++ mid), start :: ptrs, ?_, ?_, ?_⟩
  · simp [same, length]
  · rw [List.append_assoc, List.append_assoc, round, run]
    simp
  · rw [room, List.take_succ_cons]
    simp only [List.append_assoc] at pointers ⊢
    exact .cons (points mid length) pointers

theorem rdropWhile_append_all (all : ∀ c ∈ trail, isTrailing c = true) (text : List UInt8) :
    (text ++ trail).rdropWhile isTrailing = text.rdropWhile isTrailing := by
  rw [List.rdropWhile, List.reverse_append, List.dropWhile_append_of_pos (by simpa using all), List.rdropWhile]

theorem rdropWhile_append_some (more : trail.rdropWhile isTrailing ≠ []) (text : List UInt8) :
    (text ++ trail).rdropWhile isTrailing = text ++ trail.rdropWhile isTrailing := by
  have nonempty : (trail.reverse.dropWhile isTrailing).isEmpty = false := by
    simpa [List.rdropWhile] using more
  rw [List.rdropWhile, List.reverse_append, List.dropWhile_append, nonempty]
  simp [List.rdropWhile]

theorem rdropWhile_quote (text : List UInt8) :
    (doubleQuote :: text).rdropWhile isTrailing = doubleQuote :: text.rdropWhile isTrailing := by
  by_cases more : text.rdropWhile isTrailing = []
  · have all := List.rdropWhile_eq_nil_iff.mp more
    rw [more, ← List.singleton_append, rdropWhile_append_all all]
    rfl
  · exact rdropWhile_append_some more [doubleQuote]

theorem Bare.head (clean : Bare arg) (tail : List UInt8) :
    ∃ c left, arg ++ tail = c :: left ∧ c ≠ 0 ∧ isBlank c = false := by
  obtain ⟨nonempty, _, noNul, noBlank⟩ := clean
  obtain ⟨c, left, rfl⟩ := List.exists_cons_of_ne_nil nonempty
  exact ⟨c, left ++ tail, rfl, fun zero => noNul (zero ▸ List.mem_cons_self), noBlank c List.mem_cons_self⟩

theorem Bare.charAt_ne (clean : Bare arg) : charAt arg 0 ≠ 0 := by
  obtain ⟨c, left, same, nonzero, _⟩ := clean.head []
  rwa [← List.append_nil arg, same]

theorem Bare.trimmed (clean : Bare arg) (closed : arg.getLast? ≠ some 13 ∧ arg.getLast? ≠ some 10)
    (trailing : ∀ c ∈ trail, isTrailing c = true) : (arg ++ trail).rdropWhile isTrailing = arg := by
  rw [rdropWhile_append_all trailing, List.rdropWhile_eq_self_iff]
  intro nonempty trims
  have noBlank := clean.2.2.2 _ (List.getLast_mem nonempty)
  rw [List.getLast?_eq_some_getLast nonempty] at closed
  simp only [isBlank, isTrailing, Bool.or_eq_true, Bool.or_eq_false_iff, decide_eq_true_eq] at noBlank trims
  rcases trims with blank | newline
  · simp_all
  · simp_all

/-- What is left of a rendering begins with its first argument; nothing is left where there is
none. -/
theorem Renders.trimmed (rendered : Renders args body) :
    (args = [] ∧ body.rdropWhile isTrailing = []) ∨
      ∃ c left, body.rdropWhile isTrailing = c :: left ∧ c ≠ 0 ∧ isBlank c = false := by
  induction rendered with
  | done trailing => exact Or.inl ⟨rfl, List.rdropWhile_eq_nil_iff.mpr trailing⟩
  | quoted => exact Or.inr ⟨doubleQuote, _, rdropWhile_quote _, by decide, by decide⟩
  | @bare arg gap rest args clean blank apart more tail ih =>
    have some : rest.rdropWhile isTrailing ≠ [] := by
      rcases ih with ⟨none, _⟩ | ⟨c, left, trimmed, _⟩
      · exact absurd none more
      · simp [trimmed]
    rw [rdropWhile_append_some (by rw [rdropWhile_append_some some]; simp [some])]
    exact Or.inr (clean.head _)
  | @last arg trail clean closed trailing =>
    rw [clean.trimmed closed trailing, ← List.append_nil arg]
    exact Or.inr (clean.head [])

theorem Renders.stops (rendered : Renders args body) (rest : List UInt8) :
    isBlank (charAt (body.rdropWhile isTrailing ++ 0 :: rest) 0) = false := by
  rcases rendered.trimmed with ⟨_, none⟩ | ⟨c, left, some, _, noBlank⟩
  · rw [none]
    rfl
  · rwa [some]

/-- The blanks before a rendering, as far as they are left. -/
theorem Renders.gap_trimmed (rendered : Renders args body) (blank : AllBlank gap) :
    ∃ kept, AllBlank kept ∧ (args ≠ [] → kept = gap) ∧
      (gap ++ body).rdropWhile isTrailing = kept ++ body.rdropWhile isTrailing := by
  rcases rendered.trimmed with ⟨empty, none⟩ | ⟨c, left, some, _⟩
  · refine ⟨[], by simp [AllBlank], fun more => absurd empty more, ?_⟩
    rw [none, rdropWhile_append_all (List.rdropWhile_eq_nil_iff.mp none), List.nil_append, List.rdropWhile_eq_nil_iff]
    exact fun c member => isTrailing_of_isBlank (blank c member)
  · exact ⟨gap, blank, fun _ => rfl, rdropWhile_append_some (by simp [some]) gap⟩

theorem Renders.splits (rendered : Renders args body) (front rest : List UInt8) (argv : List Nat) :
    Splits maxArgs args (body.rdropWhile isTrailing) front rest argv := by
  induction rendered generalizing front argv with
  | done trailing => exact Splits.stop (Or.inl ⟨List.rdropWhile_eq_nil_iff.mpr trailing, rfl⟩)
  | @quoted arg gap body args clean blank tail ih =>
    obtain ⟨kept, keptBlank, _, trimmed⟩ := tail.gap_trimmed blank
    have written : (doubleQuote :: (arg ++ doubleQuote :: (gap ++ body))).rdropWhile isTrailing =
        doubleQuote :: (arg ++ [doubleQuote]) ++ (kept ++ body.rdropWhile isTrailing) := by
      rw [rdropWhile_quote, rdropWhile_append_some (by rw [rdropWhile_quote]; simp), rdropWhile_quote, trimmed]
      simp
    have token := takeToken_quoted clean front (kept ++ (body.rdropWhile isTrailing ++ 0 :: rest))
    rw [written]
    refine Splits.token _ (doubleQuote :: (arg ++ [0])) (front.length + 1) ?_ (List.cons_ne_nil _ _) ?_ (by simp)
      keptBlank (tail.stops rest) ?_ (ih _ _)
    · exact show doubleQuote ≠ 0 by decide
    · simpa [Nat.add_assoc, Nat.add_comm 1] using token
    · intro mid _
      exact ⟨clean.1, front ++ [doubleQuote], List.replicate kept.length 0 ++ (mid ++ 0 :: rest), by simp, by simp⟩
  | @bare arg gap body args clean blank apart more tail ih =>
    obtain ⟨kept, keptBlank, same, trimmed⟩ := tail.gap_trimmed blank
    obtain rfl := same more
    obtain ⟨c, others, rfl⟩ := List.exists_cons_of_ne_nil apart
    have some : (c :: others ++ body).rdropWhile isTrailing ≠ [] := by
      rw [trimmed]
      exact List.cons_ne_nil c _
    have next : charAt (c :: others ++ (body.rdropWhile isTrailing ++ 0 :: rest)) 0 = c := rfl
    rw [rdropWhile_append_some some, trimmed]
    refine Splits.token arg arg front.length clean.charAt_ne clean.1 ?_ rfl blank (tail.stops rest) ?_ (ih _ _)
    · exact takeToken_bare clean front (Or.inr (next ▸ blank c List.mem_cons_self))
    · intro mid _
      exact ⟨clean.2.2.1, front, List.replicate others.length 0 ++ (mid ++ 0 :: rest), rfl, rfl⟩
  | @last arg trail clean closed trailing =>
    have whole : Splits maxArgs [arg] (arg ++ ([] ++ [])) front rest argv := by
      refine Splits.token arg arg front.length clean.charAt_ne clean.1 ?_ rfl (by simp [AllBlank]) (by rfl) ?_
        (Splits.stop (Or.inl ⟨rfl, rfl⟩))
      · exact takeToken_bare clean front (Or.inl rfl)
      · intro mid length
        cases List.length_eq_zero_iff.mp length
        exact ⟨clean.2.2.1, front, rest, rfl, rfl⟩
    rw [clean.trimmed closed trailing]
    simpa using whole

theorem Renders.noNul (rendered : Renders args body) : 0 ∉ body := by
  have clear {gap : List UInt8} (all : ∀ c ∈ gap, isTrailing c = true) : 0 ∉ gap := fun member =>
    absurd (all 0 member) (by decide)
  have blanks {gap : List UInt8} (blank : AllBlank gap) : 0 ∉ gap :=
    clear fun c member => isTrailing_of_isBlank (blank c member)
  induction rendered with
  | done trailing => exact clear trailing
  | quoted clean blank tail ih => simp [doubleQuote, clean.1, blanks blank, ih]
  | bare clean blank apart more tail ih => simp [clean.2.2.1, blanks blank, ih]
  | last clean closed trailing => simp [clean.2.2.1, clear trailing]

/-- The blanks before the arguments can be taken as far as they go. -/
theorem RendersLine.split {line : List UInt8} (rendered : RendersLine args line) (rest : List UInt8) :
    ∃ lead body, AllBlank lead ∧ Renders args body ∧ line = lead ++ body ∧
      isBlank (charAt (body ++ 0 :: rest) 0) = false := by
  obtain ⟨lead, body, blank, renders, rfl⟩ := rendered
  rcases renders.trimmed with ⟨rfl, none⟩ | ⟨c, left, some, _, noBlank⟩
  · have trailing := List.rdropWhile_eq_nil_iff.mp none
    refine ⟨lead ++ body.takeWhile isBlank, body.dropWhile isBlank, ?_, ?_, ?_, ?_⟩
    · intro c member
      rcases List.mem_append.mp member with early | late
      · exact blank c early
      · exact List.mem_takeWhile_imp late
    · exact .done fun c member => trailing c ((List.dropWhile_sublist _).mem member)
    · rw [List.append_assoc, List.takeWhile_append_dropWhile]
    · exact charAt_dropWhile rfl body
  · obtain ⟨trail, whole⟩ := List.rdropWhile_prefix isTrailing (l := body)
    rw [some] at whole
    exact ⟨lead, body, blank, renders, rfl, by rw [← whole]; exact noBlank⟩

theorem parseLine_eq (line : List UInt8) (maxArgs : Int) :
    parseLine line maxArgs = parseTokens maxArgs (rtrim line (ltrim line 0)) (ltrim line 0) [] := by
  rw [parseLine]
  by_cases ends : charAt (rtrim line (ltrim line 0)) (ltrim line 0) = 0
  · rw [if_pos ends, parseTokens_stop (Or.inl ends)]
  · rw [if_neg ends]

/-- `parse_line` splits a line without its blanks before and behind. -/
theorem parseLine_trimmed {lead : List UInt8} (blank : AllBlank lead) (noNul : 0 ∉ body)
    (stops : isBlank (charAt (body ++ 0 :: rest) 0) = false) (short : body.length < 2 ^ 31) (maxArgs : Int) :
    ∃ k, k + (body.rdropWhile isTrailing).length = body.length ∧
      parseLine (lead ++ (body ++ 0 :: rest)) maxArgs =
        parseTokens maxArgs (lead ++ (body.rdropWhile isTrailing ++ 0 :: (List.replicate k 0 ++ rest))) lead.length [] := by
  have start : ltrim (lead ++ (body ++ 0 :: rest)) 0 = lead.length := by
    have skip : skipWhile isBlank (by decide) ([] ++ (lead ++ (body ++ 0 :: rest))) ([] : List UInt8).length = _ :=
      skipWhile_append blank stops
    rwa [List.nil_append, List.length_nil, Nat.zero_add] at skip
  obtain ⟨k, length, trimmed⟩ := rtrim_append noNul short lead rest
  exact ⟨k, length, by rw [parseLine_eq, start, trimmed]⟩

/-- Of a line in which arguments are written `parse_line` finds as many as there is room for, each
as the string its pointer leads to in the edited line. -/
theorem parse_line_inverts_rendering {line : List UInt8} (rendered : RendersLine args line)
    (short : line.length < 2 ^ 31) (rest : List UInt8) (maxArgs : Int) :
    (parseLine (line ++ 0 :: rest) maxArgs).argv.length = min args.length maxArgs.toNat ∧
      (∀ i p : Nat, (parseLine (line ++ 0 :: rest) maxArgs).argv[i]? = some p →
        ∃ arg, args[i]? = some arg ∧ PointsTo (parseLine (line ++ 0 :: rest) maxArgs).text p arg) ∧
      ∃ edited, (parseLine (line ++ 0 :: rest) maxArgs).text = edited ++ 0 :: rest ∧
        edited.length = line.length := by
  obtain ⟨lead, body, blank, renders, rfl, stops⟩ := rendered.split rest
  rw [List.length_append] at short
  obtain ⟨k, length, trimmed⟩ := parseLine_trimmed blank renders.noNul stops (by omega) maxArgs
  have splits : Splits maxArgs args (body.rdropWhile isTrailing) lead (List.replicate k 0 ++ rest) [] :=
    renders.splits lead _ []
  obtain ⟨mid, ptrs, size, run, pointers⟩ := splits
  rw [List.length_nil, Nat.cast_zero, Int.sub_zero] at pointers
  have edited : lead ++ (mid ++ 0 :: (List.replicate k 0 ++ rest)) =
      lead ++ (mid ++ List.replicate k 0) ++ 0 :: rest := by
    rw [← List.cons_append, ← List.replicate_succ, List.replicate_succ']
    simp
  rw [List.append_assoc, trimmed, run, List.nil_append]
  refine ⟨?_, fun i p found => ?_, _, edited, ?_⟩
  · rw [pointers.length_eq, List.length_take, Nat.min_comm]
  · obtain ⟨inside, rfl⟩ := List.getElem?_eq_some_iff.mp found
    have inside' : i < (args.take maxArgs.toNat).length := pointers.length_eq ▸ inside
    refine ⟨(args.take maxArgs.toNat)[i], ?_, pointers.get inside inside'⟩
    rw [List.getElem_take, List.getElem?_eq_getElem]
  · simp only [List.length_append, List.length_replicate]
    omega

end

/-- `a b` and `c`. -/
def twoArguments : List (List UInt8) := [[97, 32, 98], [99]]

/-- The first of them in quotes, CR and LF behind the second. -/
def twoRendered : List UInt8 := [32, doubleQuote, 97, 32, 98, doubleQuote, 32, 99, 13, 10]

theorem parse_line_inverts_rendering_two :
    (parseLine (twoRendered ++ 0 :: [7]) 8).argv.length = min twoArguments.length (8 : Int).toNat ∧
      (∀ i p : Nat, (parseLine (twoRendered ++ 0 :: [7]) 8).argv[i]? = some p →
        ∃ arg, twoArguments[i]? = some arg ∧ PointsTo (parseLine (twoRendered ++ 0 :: [7]) 8).text p arg) ∧
      ∃ edited, (parseLine (twoRendered ++ 0 :: [7]) 8).text = edited ++ 0 :: [7] ∧
        edited.length = twoRendered.length := by
  have last : Renders [[99]] ([99] ++ [13, 10]) := by
    refine .last ?_ (by decide) (by simp [isTrailing])
    exact ⟨by decide, by decide, by decide, by simp [isBlank]⟩
  have both : Renders twoArguments (doubleQuote :: ([97, 32, 98] ++ doubleQuote :: ([32] ++ ([99] ++ [13, 10])))) :=
    .quoted ⟨by decide, by decide⟩ (by simp [AllBlank, isBlank]) last
  have line : RendersLine twoArguments twoRendered := ⟨[32], _, by simp [AllBlank, isBlank], both, rfl⟩
  exact parse_line_inverts_rendering line (by decide) [7] 8

end CommandLine

end LearningOS
