import LearningOS.User.CommandLine

namespace LearningOS
open NulText

namespace CommandLine

/-- The words of a text that begins with one: a word in quotes ends at the next quote or with
the text, any other one at a blank. -/
def wordsOf : List UInt8 → List (List UInt8)
  | [] => []
  | c :: text =>
    if c = doubleQuote then
      text.takeWhile (· ≠ doubleQuote) :: wordsOf ((text.dropWhile (· ≠ doubleQuote)).tail.dropWhile isBlank)
    else (c :: text.takeWhile (!isBlank ·)) :: wordsOf ((text.dropWhile (!isBlank ·)).dropWhile isBlank)
termination_by text => text.length
decreasing_by
  · have before := (List.dropWhile_sublist (fun c : UInt8 => c ≠ doubleQuote) (l := text)).length_le
    have behind := (List.dropWhile_sublist isBlank (l := (text.dropWhile (· ≠ doubleQuote)).tail)).length_le
    rw [List.length_tail] at behind
    simp only [List.length_cons]
    omega
  · have before := (List.dropWhile_sublist (!isBlank ·) (l := text)).length_le
    have behind := (List.dropWhile_sublist isBlank (l := text.dropWhile (!isBlank ·))).length_le
    simp only [List.length_cons]
    omega

/-- The words of a line up to its first NUL. -/
def lineWords (line : List UInt8) : List (List UInt8) :=
  wordsOf (((line.takeWhile (· ≠ 0)).dropWhile isBlank).rdropWhile isTrailing)

section
variable {maxArgs : Int} {text front rest arg : List UInt8} {argv : List Nat} {c : UInt8}

/-- No word is longer than its text. -/
theorem wordsOf_length (text : List UInt8) : ∀ w ∈ wordsOf text, w.length ≤ text.length := by
  induction text using wordsOf.induct with
  | case1 => simp [wordsOf]
  | case2 text ih =>
    rw [wordsOf, if_pos rfl]
    have word := (List.takeWhile_sublist (· ≠ doubleQuote) (l := text)).length_le
    have before := (List.dropWhile_sublist (· ≠ doubleQuote) (l := text)).length_le
    have behind := (List.dropWhile_sublist isBlank (l := (text.dropWhile (· ≠ doubleQuote)).tail)).length_le
    rw [List.length_tail] at behind
    refine List.forall_mem_cons.mpr ⟨by rw [List.length_cons]; omega, fun w member => ?_⟩
    have inside := ih w member
    rw [List.length_cons]
    omega
  | case3 c text other ih =>
    rw [wordsOf, if_neg other]
    have word := (List.takeWhile_sublist (!isBlank ·) (l := text)).length_le
    have before := (List.dropWhile_sublist (!isBlank ·) (l := text)).length_le
    have behind := (List.dropWhile_sublist isBlank (l := text.dropWhile (!isBlank ·))).length_le
    refine List.forall_mem_cons.mpr ⟨by rw [List.length_cons, List.length_cons]; omega, fun w member => ?_⟩
    have inside := ih w member
    rw [List.length_cons]
    omega

theorem lineWords_length (line : List UInt8) : ∀ w ∈ lineWords line, w.length ≤ line.length := by
  intro w member
  have inside := wordsOf_length _ w member
  have trimmed := (List.rdropWhile_prefix isTrailing (l := (line.takeWhile (· ≠ 0)).dropWhile isBlank)).length_le
  have lead := (List.dropWhile_sublist isBlank (l := line.takeWhile (· ≠ 0))).length_le
  have string := (List.takeWhile_sublist (· ≠ 0) (l := line)).length_le
  omega

/-- A quote that is not closed takes what is left. -/
theorem takeToken_open (clean : Quotable arg) (front rest : List UInt8) :
    takeToken (front ++ (doubleQuote :: (arg ++ 0 :: rest))) front.length =
      { start := front.length + 1, text := front ++ (doubleQuote :: (arg ++ 0 :: rest))
        p := front.length + (arg.length + 1) } := by
  have inside : ∀ c ∈ arg, (c ≠ 0 && c ≠ doubleQuote) = true := fun c member => by
    have notNul : c ≠ 0 := fun zero => clean.1 (zero ▸ member)
    have notQuote : c ≠ doubleQuote := fun quote => clean.2 (quote ▸ member)
    simp [notNul, notQuote]
  have scan : skipWhile (fun c => c ≠ 0 && c ≠ doubleQuote) (by decide)
      (front ++ [doubleQuote] ++ (arg ++ 0 :: rest)) (front ++ [doubleQuote]).length = _ := skipWhile_append inside rfl
  have split : front ++ (doubleQuote :: (arg ++ 0 :: rest)) = front ++ [doubleQuote] ++ arg ++ 0 :: rest := by simp
  have length : (front ++ [doubleQuote] ++ arg).length = front.length + 1 + arg.length := by
    rw [List.length_append, List.length_append, List.length_singleton]
  rw [List.append_assoc, List.singleton_append, List.length_append, List.length_singleton] at scan
  rw [takeToken, charAt_append_length, charAt_cons_zero, if_pos rfl]
  dsimp only
  rw [scan, split, ← length, charAt_append_length, charAt_cons_zero, if_neg (by decide), length]
  congr 1
  omega

theorem takeWhile_quotable (noNul : 0 ∉ text) : Quotable (text.takeWhile (· ≠ doubleQuote)) :=
  ⟨fun member => noNul ((List.takeWhile_sublist _).mem member), fun member => by
    have other := List.mem_takeWhile_imp member
    simp at other⟩

theorem takeWhile_blank (text : List UInt8) : AllBlank (text.takeWhile isBlank) := fun _ => List.mem_takeWhile_imp

/-- A word in quotes in front of what is split already, or with nothing behind it. -/
theorem splits_quoted (front : List UInt8) (argv : List Nat) {gap left : List UInt8} {args : List (List UInt8)}
    (clean : Quotable arg) (blank : AllBlank gap)
    (stops : isBlank (charAt (left ++ 0 :: rest) 0) = false)
    (tail : Splits maxArgs args left (front ++ (doubleQuote :: (arg ++ [0])) ++ List.replicate gap.length 0) rest
      (argv ++ [front.length + 1])) :
    Splits maxArgs (arg :: args) (doubleQuote :: (arg ++ [doubleQuote]) ++ (gap ++ left)) front rest argv := by
  have token := takeToken_quoted clean front (gap ++ (left ++ 0 :: rest))
  refine Splits.token _ (doubleQuote :: (arg ++ [0])) (front.length + 1) ?_ (List.cons_ne_nil _ _) ?_ (by simp) blank
    stops ?_ tail
  · exact show doubleQuote ≠ 0 by decide
  · simpa [Nat.add_assoc, Nat.add_comm 1] using token
  · intro mid _
    exact ⟨clean.1, front ++ [doubleQuote], List.replicate gap.length 0 ++ (mid ++ 0 :: rest), by simp, by simp⟩

theorem splits_open (clean : Quotable arg) : Splits maxArgs [arg] (doubleQuote :: arg) front rest argv := by
  have whole : Splits maxArgs [arg] (doubleQuote :: arg ++ ([] ++ [])) front rest argv := by
    refine Splits.token _ (doubleQuote :: arg) (front.length + 1) ?_ (List.cons_ne_nil _ _) ?_ rfl (by simp [AllBlank])
      (by rfl) ?_ (Splits.stop (Or.inl ⟨rfl, rfl⟩))
    · exact show doubleQuote ≠ 0 by decide
    · exact takeToken_open clean front rest
    · intro mid length
      cases List.length_eq_zero_iff.mp length
      exact ⟨clean.1, front ++ [doubleQuote], rest, by simp, by simp⟩
  simpa using whole

theorem splits_bare (front : List UInt8) (argv : List Nat) {gap left : List UInt8} {args : List (List UInt8)}
    (clean : Bare arg) (blank : AllBlank gap)
    (apart : gap = [] → left = []) (stops : isBlank (charAt (left ++ 0 :: rest) 0) = false)
    (tail : Splits maxArgs args left (front ++ arg ++ List.replicate gap.length 0) rest (argv ++ [front.length])) :
    Splits maxArgs (arg :: args) (arg ++ (gap ++ left)) front rest argv := by
  have ends : charAt (gap ++ (left ++ 0 :: rest)) 0 = 0 ∨ isBlank (charAt (gap ++ (left ++ 0 :: rest)) 0) = true := by
    cases gap with
    | nil =>
      rw [apart rfl]
      exact Or.inl rfl
    | cons b gap => exact Or.inr (blank b List.mem_cons_self)
  refine Splits.token arg arg front.length clean.charAt_ne clean.1 ?_ rfl blank stops ?_ tail
  · exact takeToken_bare clean front ends
  · intro mid length
    refine ⟨clean.2.2.1, front, ?_⟩
    cases gap with
    | nil =>
      rw [apart rfl] at length
      cases List.length_eq_zero_iff.mp length
      exact ⟨rest, rfl, rfl⟩
    | cons b gap => exact ⟨List.replicate gap.length 0 ++ (mid ++ 0 :: rest), rfl, rfl⟩

/-- From a cursor on a word, the words are found that there is still room for. -/
theorem wordsOf_splits (maxArgs : Int) (text front rest : List UInt8) (argv : List Nat) (noNul : 0 ∉ text)
    (begins : isBlank (charAt (text ++ 0 :: rest) 0) = false) : Splits maxArgs (wordsOf text) text front rest argv := by
  induction text using wordsOf.induct generalizing front argv with
  | case1 =>
    rw [wordsOf]
    exact Splits.stop (Or.inl ⟨rfl, rfl⟩)
  | case2 text ih =>
    have tailNoNul : 0 ∉ text := fun member => noNul (List.mem_cons_of_mem _ member)
    have clean := takeWhile_quotable tailNoNul
    have whole := List.takeWhile_append_dropWhile (p := (· ≠ doubleQuote)) (l := text)
    rw [wordsOf, if_pos rfl]
    cases closing : text.dropWhile (· ≠ doubleQuote) with
    | nil =>
      rw [closing, List.append_nil] at whole
      rw [List.tail_nil, List.dropWhile_nil, wordsOf, whole]
      exact splits_open (whole ▸ clean)
    | cons q after =>
      have quote : q = doubleQuote := by
        have first := List.head?_dropWhile_not (· ≠ doubleQuote) text
        rw [closing] at first
        simpa using first
      rw [closing, quote] at whole
      rw [closing, List.tail_cons] at ih
      rw [List.tail_cons]
      have inner : 0 ∉ after.dropWhile isBlank := fun member =>
        tailNoNul (whole ▸ List.mem_append_right _ (List.mem_cons_of_mem _ ((List.dropWhile_sublist _).mem member)))
      have stops : isBlank (charAt (after.dropWhile isBlank ++ 0 :: rest) 0) = false := charAt_dropWhile rfl after
      have split := splits_quoted front argv clean (takeWhile_blank after) stops (ih _ _ inner stops)
      rw [List.takeWhile_append_dropWhile, List.cons_append, List.append_assoc, List.singleton_append, whole] at split
      exact split
  | case3 c text other ih =>
    have tailNoNul : 0 ∉ text := fun member => noNul (List.mem_cons_of_mem _ member)
    have nonzero : c ≠ 0 := fun zero => noNul (zero ▸ List.mem_cons_self)
    have whole := List.takeWhile_append_dropWhile (p := (!isBlank ·)) (l := text)
    have clean : Bare (c :: text.takeWhile (!isBlank ·)) := by
      refine ⟨List.cons_ne_nil _ _, by simpa using other, ?_, ?_⟩
      · rw [List.mem_cons, not_or]
        exact ⟨nonzero.symm, fun member => tailNoNul ((List.takeWhile_sublist _).mem member)⟩
      · refine List.forall_mem_cons.mpr ⟨begins, fun d member => ?_⟩
        simpa using List.mem_takeWhile_imp member
    generalize behind : text.dropWhile (!isBlank ·) = after at ih whole
    have inner : 0 ∉ after.dropWhile isBlank := fun member =>
      tailNoNul (whole ▸ List.mem_append_right _ ((List.dropWhile_sublist _).mem member))
    have stops : isBlank (charAt (after.dropWhile isBlank ++ 0 :: rest) 0) = false := charAt_dropWhile rfl after
    have apart : after.takeWhile isBlank = [] → after.dropWhile isBlank = [] := by
      intro none
      cases after with
      | nil => rfl
      | cons d after =>
        have first := List.head?_dropWhile_not (!isBlank ·) text
        rw [behind] at first
        rw [List.takeWhile_cons_of_pos (by simpa using first)] at none
        cases none
    have split := splits_bare front argv clean (takeWhile_blank after) apart stops (ih _ _ inner stops)
    rw [List.takeWhile_append_dropWhile, List.cons_append, whole] at split
    rw [wordsOf, if_neg other, behind]
    exact split

theorem PointsTo.argument {p : Nat} (points : PointsTo text p arg) : (text.drop p).takeWhile (· ≠ 0) = arg := by
  obtain ⟨noNul, front, rest, rfl, rfl⟩ := points
  have nonzero : ∀ c ∈ arg, decide (c ≠ 0) = true := fun c member => by
    simpa using fun zero : c = 0 => noNul (zero ▸ member)
  rw [List.drop_left, List.takeWhile_append_of_pos nonzero]
  simp

end

/-- `parse_line` finds the words of any line, as far as there is room for them. -/
theorem parseLine_words {line : List UInt8} (short : line.length < 2 ^ 31) (rest : List UInt8) (maxArgs : Int) :
    (parseLine (line ++ 0 :: rest) maxArgs).argv.map (fun p =>
      ((parseLine (line ++ 0 :: rest) maxArgs).text.drop p).takeWhile (· ≠ 0)) = (lineWords line).take maxArgs.toNat := by
  obtain ⟨behind, buffer⟩ : ∃ behind, line ++ 0 :: rest = line.takeWhile (· ≠ 0) ++ 0 :: behind := by
    have whole := List.takeWhile_append_dropWhile (p := (· ≠ 0)) (l := line)
    cases nul : line.dropWhile (· ≠ 0) with
    | nil =>
      rw [nul, List.append_nil] at whole
      exact ⟨rest, by rw [whole]⟩
    | cons c after =>
      have zero : c = 0 := by
        have first := List.head?_dropWhile_not (· ≠ 0) line
        rw [nul] at first
        simpa using first
      refine ⟨after ++ 0 :: rest, ?_⟩
      rw [nul, zero] at whole
      rw [← List.cons_append, ← List.append_assoc, whole]
  have noNul : 0 ∉ line.takeWhile (· ≠ 0) := fun member => by
    have other := List.mem_takeWhile_imp member
    simp at other
  have less := (List.takeWhile_sublist (· ≠ 0) (l := line)).length_le
  rw [lineWords, buffer]
  generalize line.takeWhile (· ≠ 0) = text at noNul less
  have whole := List.takeWhile_append_dropWhile (p := isBlank) (l := text)
  have bodyNoNul : 0 ∉ text.dropWhile isBlank := fun member => noNul ((List.dropWhile_sublist _).mem member)
  have stops : isBlank (charAt (text.dropWhile isBlank ++ 0 :: behind) 0) = false := charAt_dropWhile rfl text
  have bodyLength := (List.dropWhile_sublist isBlank (l := text)).length_le
  generalize text.dropWhile isBlank = body at whole bodyNoNul stops bodyLength
  obtain ⟨k, _, trimmed⟩ := parseLine_trimmed (takeWhile_blank text) bodyNoNul stops (by omega) maxArgs
  rw [← List.append_assoc, whole] at trimmed
  have trimmedNoNul : 0 ∉ body.rdropWhile isTrailing := fun member =>
    bodyNoNul ((List.rdropWhile_prefix isTrailing (l := body)).sublist.mem member)
  have begins : isBlank (charAt (body.rdropWhile isTrailing ++ 0 :: (List.replicate k 0 ++ behind)) 0) = false := by
    obtain ⟨trail, front⟩ := List.rdropWhile_prefix isTrailing (l := body)
    cases first : body.rdropWhile isTrailing with
    | nil => rfl
    | cons c left =>
      rw [first] at front
      rw [← front] at stops
      exact stops
  obtain ⟨mid, ptrs, _, run, pointers⟩ := wordsOf_splits maxArgs (body.rdropWhile isTrailing)
    (text.takeWhile isBlank) (List.replicate k 0 ++ behind) [] trimmedNoNul begins
  rw [List.length_nil, Nat.cast_zero, Int.sub_zero] at pointers
  rw [trimmed, run, List.nil_append]
  refine List.ext_getElem (by rw [List.length_map, pointers.length_eq]) fun i inside inside' => ?_
  rw [List.getElem_map]
  rw [List.length_map] at inside
  exact (pointers.get inside inside').argument

end CommandLine

end LearningOS
