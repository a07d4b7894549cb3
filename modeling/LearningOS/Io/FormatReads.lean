import LearningOS.Io.Kprintf
import Mathlib.Data.List.TakeWhile

namespace LearningOS
open ByteStore NulText

namespace Kprintf

/-- Another memory with the bytes of the one at the indices of the format that are read. -/
def ReadsAlike (m m' : Bytes) (fmt : Nat) (reads : List Nat) : Prop := ∀ k ∈ reads, fmtAt m' fmt k = fmtAt m fmt k

section
variable {m m' : Bytes} {fmt rounds i arg : Nat} {args : Nat → Nat}

theorem ReadsAlike.left {reads more : List Nat} (alike : ReadsAlike m m' fmt (reads ++ more)) :
    ReadsAlike m m' fmt reads := fun k member => alike k (List.mem_append_left more member)

theorem ReadsAlike.right {reads more : List Nat} (alike : ReadsAlike m m' fmt (reads ++ more)) :
    ReadsAlike m m' fmt more := fun k member => alike k (List.mem_append_right reads member)

theorem readWidth_last {width : Int} {w : Width} (run : readWidth m fmt rounds i width = some w) : w.i ∈ w.reads := by
  induction rounds generalizing i width w with
  | zero => cases run
  | succ rounds ih =>
    rw [readWidth] at run
    by_cases digit : isDigit (fmtAt m fmt i) = true
    · rw [if_pos digit] at run
      obtain ⟨w', tail, rfl⟩ := Option.map_eq_some_iff.mp run
      exact List.mem_cons_of_mem i (ih tail)
    · rw [if_neg digit] at run
      cases run
      exact List.mem_singleton.mpr rfl

theorem readWidth_alike {width : Int} {w : Width} (run : readWidth m fmt rounds i width = some w)
    (alike : ReadsAlike m m' fmt w.reads) : readWidth m' fmt rounds i width = some w := by
  induction rounds generalizing i width w with
  | zero => cases run
  | succ rounds ih =>
    rw [readWidth] at run ⊢
    by_cases digit : isDigit (fmtAt m fmt i) = true
    · rw [if_pos digit] at run
      obtain ⟨w', tail, rfl⟩ := Option.map_eq_some_iff.mp run
      obtain ⟨here, behind⟩ := List.forall_mem_cons.mp alike
      rw [here, if_pos digit]
      dsimp only
      rw [ih tail behind, Option.map_some]
    · rw [if_neg digit] at run
      cases run
      rw [alike i (List.mem_singleton.mpr rfl), if_neg digit]

theorem convert_alike (strings : ∀ s, stringArgument m' s = stringArgument m s) (c : UInt8) (width : Int)
    (pad : UInt8) : convert m' args c width pad arg = convert m args c width pad arg := by
  simp only [convert, strings]

theorem conversion_alike (strings : ∀ s, stringArgument m' s = stringArgument m s) {pad : UInt8} {w : Width}
    {r : Round} (last : w.i ∈ w.reads) (run : conversion m fmt args pad w arg = some r)
    (alike : ReadsAlike m m' fmt r.reads) :
    ReadsAlike m m' fmt w.reads ∧ conversion m' fmt args pad w arg = some r := by
  rw [conversion] at run ⊢
  dsimp only at run ⊢
  by_cases long : fmtAt m fmt w.i = 'l'.toUInt8 ∧ fmtAt m fmt (u32 (w.i + 1)) = 'l'.toUInt8
  · rw [if_pos long] at run
    -- Each of the branches behind the two letters has the same list of indices.
    have reads : r.reads = w.reads ++ [u32 (w.i + 1), u32 (w.i + 2)] := by
      split at run
      · cases run
        rfl
      · split at run
        · cases run
          rfl
        · cases run
          rfl
    rw [reads] at alike
    have ahead : fmtAt m' fmt (u32 (w.i + 1)) = fmtAt m fmt (u32 (w.i + 1)) := alike.right _ (by simp)
    have behind : fmtAt m' fmt (u32 (w.i + 2)) = fmtAt m fmt (u32 (w.i + 2)) := alike.right _ (by simp)
    rw [alike.left _ last, ahead, behind, if_pos long]
    exact ⟨alike.left, run⟩
  · rw [if_neg long] at run
    obtain ⟨⟨out, next⟩, made, rfl⟩ := Option.map_eq_some_iff.mp run
    have here : fmtAt m' fmt w.i = fmtAt m fmt w.i := alike.left _ last
    have short : ¬(fmtAt m' fmt w.i = 'l'.toUInt8 ∧ fmtAt m' fmt (u32 (w.i + 1)) = 'l'.toUInt8) := by
      rintro ⟨first, second⟩
      rw [here] at first
      have ahead := alike.right (u32 (w.i + 1)) (by rw [if_pos first]; exact List.mem_singleton.mpr rfl)
      exact long ⟨first, ahead ▸ second⟩
    rw [if_neg short, here, convert_alike strings, made]
    exact ⟨alike.left, rfl⟩

theorem directive_alike (strings : ∀ s, stringArgument m' s = stringArgument m s) {r : Round}
    (run : directive m fmt args i arg = some r) (alike : ReadsAlike m m' fmt r.reads) :
    directive m' fmt args i arg = some r := by
  rw [directive] at run ⊢
  dsimp only at run ⊢
  by_cases ends : fmtAt m fmt (u32 (i + 1)) = 0
  · rw [if_pos ends] at run
    cases run
    rw [alike _ (List.mem_singleton.mpr rfl), if_pos ends]
  · rw [if_neg ends] at run
    obtain ⟨w, width, rest⟩ := Option.bind_eq_some_iff.mp run
    obtain ⟨early, same⟩ := conversion_alike strings (List.mem_cons_of_mem _ (readWidth_last width)) rest alike
    obtain ⟨here, digits⟩ := List.forall_mem_cons.mp early
    rw [here, if_neg ends, readWidth_alike width digits, Option.bind_some, same]

theorem round_alike (strings : ∀ s, stringArgument m' s = stringArgument m s) {r : Round}
    (run : round m fmt args i arg = some r) (here : fmtAt m' fmt i = fmtAt m fmt i)
    (alike : ReadsAlike m m' fmt r.reads) : round m' fmt args i arg = some r := by
  rw [round] at run ⊢
  rw [here]
  by_cases plain : fmtAt m fmt i ≠ '%'.toUInt8
  · rwa [if_pos plain] at run ⊢
  · rw [if_neg plain] at run ⊢
    exact directive_alike strings run alike

theorem kvprintfFrom_alike (strings : ∀ s, stringArgument m' s = stringArgument m s) {p : Printed}
    (run : kvprintfFrom m fmt args rounds i arg = some p) (alike : ReadsAlike m m' fmt p.reads) :
    kvprintfFrom m' fmt args rounds i arg = some p := by
  induction rounds generalizing i arg p with
  | zero => cases run
  | succ rounds ih =>
    rw [kvprintfFrom] at run ⊢
    by_cases ends : fmtAt m fmt i = 0
    · rw [if_pos ends] at run
      cases run
      rw [alike i (List.mem_singleton.mpr rfl), if_pos ends]
    rw [if_neg ends] at run
    obtain ⟨r, done, rest⟩ := Option.bind_eq_some_iff.mp run
    cases last : r.last with
    | none =>
      rw [last] at rest
      cases rest
      obtain ⟨here, inner⟩ := List.forall_mem_cons.mp alike
      rw [here, if_neg ends, round_alike strings done here inner, Option.bind_some, last]
    | some j =>
      rw [last] at rest
      obtain ⟨p', tail, rfl⟩ := Option.map_eq_some_iff.mp rest
      obtain ⟨here, inner⟩ := List.forall_mem_cons.mp alike.left
      rw [here, if_neg ends, round_alike strings done here inner, Option.bind_some, last]
      dsimp only
      rw [ih tail alike.right]
      rfl

/-- What a run prints depends on the format at the indices it reads, and on the strings that its
arguments point to, alone. -/
theorem kvprintf_alike (strings : ∀ s, stringArgument m' s = stringArgument m s) {p : Printed}
    (run : kvprintf m fmt args rounds = some p) (alike : ReadsAlike m m' fmt p.reads) :
    kvprintf m' fmt args rounds = some p := kvprintfFrom_alike strings run alike

end

/-- Whether the last directive of a format ends behind a zero flag or in its width: each round
takes a character or a directive, of which `ll` has one character more. -/
def endsInWidth : List UInt8 → Bool
  | [] => false
  | c :: rest =>
    if c ≠ '%'.toUInt8 then endsInWidth rest
    else if rest.dropWhile isDigit = [] then rest ≠ []
    else if (rest.dropWhile isDigit).take 2 = ['l', 'l'].map Char.toUInt8 then
      endsInWidth ((rest.dropWhile isDigit).drop 3)
    else endsInWidth ((rest.dropWhile isDigit).drop 1)
termination_by text => text.length
decreasing_by
  all_goals
    have shorter := (List.dropWhile_sublist isDigit (l := rest)).length_le
    simp
    try omega

/-- The run ends, and reads the format up to its NUL at most. -/
def ReadsInside (m : Bytes) (fmt : Nat) (args : Nat → Nat) (length : Nat) : Prop :=
  ∃ rounds p, kvprintf m fmt args rounds = some p ∧ ∀ i ∈ p.reads, i ≤ length

section
variable {m : Bytes} {fmt : Nat} {args : Nat → Nat} {text front rest digits tail : List UInt8} {c : UInt8}

theorem endsInWidth_literal (plain : c ≠ '%'.toUInt8) : endsInWidth (c :: rest) = endsInWidth rest := by
  rw [endsInWidth, if_pos plain]

theorem dropWhile_digits (all : ∀ c ∈ digits, isDigit c = true) (stop : isDigit (charAt rest 0) = false) :
    (digits ++ rest).dropWhile isDigit = rest := by
  rw [List.dropWhile_append_of_pos all]
  cases rest with
  | nil => rfl
  | cons c rest => exact List.dropWhile_cons_of_neg (by simpa using stop)

theorem span_digits (text : List UInt8) :
    ∃ digits rest, text = digits ++ rest ∧ (∀ c ∈ digits, isDigit c = true) ∧ isDigit (charAt rest 0) = false := by
  have stops : isDigit (charAt (text.dropWhile isDigit ++ []) 0) = false := charAt_dropWhile rfl text
  rw [List.append_nil] at stops
  exact ⟨text.takeWhile isDigit, text.dropWhile isDigit, List.takeWhile_append_dropWhile.symm,
    fun c member => List.mem_takeWhile_imp member, stops⟩

theorem endsInWidth_digits (all : ∀ c ∈ digits, isDigit c = true) :
    endsInWidth ('%'.toUInt8 :: digits) = decide (digits ≠ []) := by
  have none : (digits ++ []).dropWhile isDigit = [] := dropWhile_digits all rfl
  rw [List.append_nil] at none
  rw [endsInWidth, if_neg (by simp), if_pos none]

theorem endsInWidth_long (all : ∀ c ∈ digits, isDigit c = true) :
    endsInWidth ('%'.toUInt8 :: (digits ++ 'l'.toUInt8 :: 'l'.toUInt8 :: rest)) = endsInWidth (rest.drop 1) := by
  have tail : (digits ++ 'l'.toUInt8 :: 'l'.toUInt8 :: rest).dropWhile isDigit = _ := dropWhile_digits all rfl
  rw [endsInWidth, if_neg (by simp), tail, if_neg (List.cons_ne_nil _ _), if_pos (by rfl)]
  rfl

theorem endsInWidth_plain (all : ∀ c ∈ digits, isDigit c = true) (stop : isDigit c = false)
    (plain : (c :: rest).take 2 ≠ ['l', 'l'].map Char.toUInt8) :
    endsInWidth ('%'.toUInt8 :: (digits ++ c :: rest)) = endsInWidth rest := by
  have tail : (digits ++ c :: rest).dropWhile isDigit = c :: rest := dropWhile_digits all stop
  rw [endsInWidth, if_neg (by simp), tail, if_neg (List.cons_ne_nil c rest), if_neg plain]
  rfl

/-- Where a format ends with its NUL, every pointer points to a string. -/
theorem Format.string (format : Format m fmt text) (v : Nat) : ∃ s, stringArgument m v = some s := by
  have nul : m (u32 (fmt + text.length)) = 0 := by
    have last := format.chars text.length (Nat.le_refl _)
    rwa [charAt, List.getD_eq_default _ _ (Nat.le_refl _)] at last
  unfold stringArgument
  split
  · exact ⟨_, rfl⟩
  · exact stringAt_of_nul (Nat.mod_lt _ (by decide)) nul _

theorem convert_some (format : Format m fmt text) (args : Nat → Nat) (c : UInt8) (width : Int) (pad : UInt8)
    (arg : Nat) :
    ∃ out next, convert m args c width pad arg = some (out, next) := by
  obtain ⟨s, string⟩ := format.string (u32 (args arg))
  have some : (convert m args c width pad arg).isSome = true := by
    simp only [convert, string, Option.map_some, apply_ite Option.isSome, Option.isSome_some, ite_self]
  obtain ⟨⟨out, next⟩, done⟩ := Option.isSome_iff_exists.mp some
  exact ⟨out, next, done⟩

theorem conversion_plain (args : Nat → Nat) (format : Format m fmt (front ++ rest))
    (plain : rest.take 2 ≠ ['l', 'l'].map Char.toUInt8) (pad : UInt8) (width : Int) (reads : List Nat) (arg : Nat) :
    ∃ r, conversion m fmt args pad { i := front.length, width := width, reads := reads } arg = some r ∧
      r.last = some front.length ∧ ∀ k ∈ r.reads, k ∈ reads ∨ k ≤ front.length + rest.length := by
  have here := format.at
  have notLong : ¬(fmtAt m fmt front.length = 'l'.toUInt8 ∧ fmtAt m fmt (u32 (front.length + 1)) = 'l'.toUInt8) := by
    rintro ⟨first, second⟩
    rw [here] at first
    cases rest with
    | nil => cases first
    | cons c rest =>
      obtain rfl : c = 'l'.toUInt8 := first
      have next := format.step.at
      rw [List.length_append, List.length_singleton] at next
      rw [format.next (by simp), next] at second
      cases rest with
      | nil => cases second
      | cons d rest =>
        obtain rfl : d = 'l'.toUInt8 := second
        exact plain rfl
  obtain ⟨out, next, done⟩ := convert_some format args (fmtAt m fmt front.length) width pad arg
  rw [conversion]
  dsimp only
  rw [if_neg notLong, done]
  refine ⟨_, rfl, rfl, fun k member => ?_⟩
  rcases List.mem_append.mp member with early | ahead
  · exact Or.inl early
  · by_cases long : fmtAt m fmt front.length = 'l'.toUInt8
    · rw [if_pos long] at ahead
      cases rest with
      | nil =>
        rw [here] at long
        cases long
      | cons c rest =>
        rw [format.next (by simp)] at ahead
        cases List.mem_singleton.mp ahead
        exact Or.inr (by simp)
    · rw [if_neg long] at ahead
      cases ahead

/-- The body of the loop behind the width at two letters `l`, by the character behind them. -/
theorem conversion_ll (args : Nat → Nat) (format : Format m fmt (front ++ 'l'.toUInt8 :: 'l'.toUInt8 :: rest))
    (pad : UInt8) (width : Int) (reads : List Nat) (arg : Nat) :
    conversion m fmt args pad { i := front.length, width := width, reads := reads } arg =
      let last := front.length + 2
      let reads := reads ++ [front.length + 1, last]
      if charAt rest 0 = 0 then some { last := none, out := [], arg := arg, reads := reads }
      else if charAt rest 0 = 'u'.toUInt8 then
        let v := u32 (args arg) + 2 ^ 32 * u32 (args (arg + 1))
        some { last := some last, out := printUintBase v 10 width pad false, arg := arg + 2, reads := reads }
      else
        let out := ['%', 'l', 'l'].map Char.toUInt8 ++ [charAt rest 0]
        some { last := some last, out := out, arg := arg, reads := reads } := by
  have first := format.at
  have second := format.step.at
  have third := format.step.step.at
  rw [List.length_append, List.length_singleton] at second
  rw [List.length_append, List.length_append, List.length_singleton, Nat.add_assoc] at third
  rw [conversion]
  dsimp only
  rw [format.next (by simp), format.next (by simp), if_pos ⟨first, second⟩, third]

theorem conversion_long (args : Nat → Nat) (format : Format m fmt (front ++ 'l'.toUInt8 :: 'l'.toUInt8 :: rest))
    (pad : UInt8) (width : Int) (reads : List Nat) (arg : Nat) :
    ∃ r, conversion m fmt args pad { i := front.length, width := width, reads := reads } arg = some r ∧
      r.last = (if rest = [] then none else some (front.length + 2)) ∧
        ∀ k ∈ r.reads, k ∈ reads ∨ k ≤ front.length + 2 := by
  have inside (r : List Nat) (same : r = reads ++ [front.length + 1, front.length + 2]) :
      ∀ k ∈ r, k ∈ reads ∨ k ≤ front.length + 2 := by
    subst same
    intro k member
    simp only [List.mem_append, List.mem_cons, List.not_mem_nil, or_false] at member
    exact member.imp_right fun ahead => by omega
  rw [conversion_ll args format]
  by_cases ends : rest = []
  · subst ends
    exact ⟨_, if_pos rfl, rfl, inside _ rfl⟩
  · dsimp only
    rw [if_neg (format.step.step.charAt_ne_zero ends), if_neg ends]
    split
    · exact ⟨_, rfl, rfl, inside _ rfl⟩
    · exact ⟨_, rfl, rfl, inside _ rfl⟩

/-- How a round ends that begins in front of `rest`: it leaves the loop, takes a part of `rest`,
or comes to stand on the NUL, which the loop then steps over. -/
inductive RoundEnds (start : Nat) (rest : List UInt8) : Option Nat → Prop
  | leaves (inside : endsInWidth rest = false) : RoundEnds start rest none
  | takes {used left : List UInt8} {d : UInt8} (split : rest = used ++ d :: left)
      (same : endsInWidth rest = endsInWidth left) : RoundEnds start rest (some (start + used.length))
  | passes (past : endsInWidth rest = true) : RoundEnds start rest (some (start + rest.length))

theorem round_cases (format : Format m fmt (front ++ c :: rest)) (args : Nat → Nat) (arg : Nat) :
    ∃ r, round m fmt args front.length arg = some r ∧ RoundEnds front.length (c :: rest) r.last ∧
      ∀ k ∈ r.reads, k ≤ front.length + (c :: rest).length := by
  have here : fmtAt m fmt front.length = c := format.at
  rw [round, here]
  by_cases plain : c ≠ '%'.toUInt8
  · rw [if_pos plain]
    exact ⟨_, rfl, .takes (List.nil_append _).symm (endsInWidth_literal plain), by simp⟩
  rw [if_neg plain]
  obtain rfl : c = '%'.toUInt8 := not_not.mp plain
  obtain ⟨digits, tail, rfl, all, stop⟩ := span_digits rest
  by_cases ends : digits ++ tail = []
  · obtain ⟨rfl, rfl⟩ := List.append_eq_nil_iff.mp ends
    have nul := format.step.at
    rw [List.length_append, List.length_singleton] at nul
    refine ⟨_, by rw [directive, format.next (by simp)]; exact if_pos nul, .leaves ?_, by simp⟩
    exact endsInWidth_digits (by simp)
  obtain ⟨reads, early, behind⟩ := directive_eq args format all stop ends
  have later : Format m fmt (front ++ '%'.toUInt8 :: digits ++ tail) := by simpa using format
  have length : front.length + 1 + digits.length = (front ++ '%'.toUInt8 :: digits).length := by simp; omega
  have total : front.length + ('%'.toUInt8 :: (digits ++ tail)).length =
      (front ++ '%'.toUInt8 :: digits).length + tail.length := by simp; omega
  rw [behind, length, total]
  rw [length] at early
  by_cases long : tail.take 2 = ['l', 'l'].map Char.toUInt8
  · obtain ⟨left, rfl⟩ : ∃ left, tail = 'l'.toUInt8 :: 'l'.toUInt8 :: left :=
      ⟨tail.drop 2, by rw [← List.take_append_drop 2 tail, long]; rfl⟩
    obtain ⟨r, done, last, inside⟩ := conversion_long args later (padOf digits) (widthOf 0 digits) reads arg
    have same : _ = endsInWidth (left.drop 1) := endsInWidth_long all
    refine ⟨r, done, ?_, fun k member => ?_⟩
    · rw [last]
      cases left with
      | nil => exact .leaves (same.trans endsInWidth.eq_1)
      | cons d left =>
        have split : '%'.toUInt8 :: (digits ++ 'l'.toUInt8 :: 'l'.toUInt8 :: d :: left) =
            '%'.toUInt8 :: (digits ++ ['l'.toUInt8, 'l'.toUInt8]) ++ d :: left := by simp
        have taken : RoundEnds front.length _
            (some (front.length + ('%'.toUInt8 :: (digits ++ ['l'.toUInt8, 'l'.toUInt8])).length)) := .takes split same
        rw [if_neg (List.cons_ne_nil d left), ← length]
        simpa [Nat.add_assoc, Nat.add_comm 1] using taken
    · rcases inside k member with before | within
      · exact Nat.le_add_right_of_le (early k before)
      · simp only [List.length_cons]
        omega
  · obtain ⟨r, done, last, inside⟩ := conversion_plain args later long (padOf digits) (widthOf 0 digits) reads arg
    refine ⟨r, done, ?_, fun k member => ?_⟩
    · rw [last]
      cases tail with
      | nil =>
        rw [List.append_nil] at ends
        rw [List.append_nil, ← length, Nat.add_assoc, Nat.add_comm 1]
        exact .passes (by rw [endsInWidth_digits all, decide_eq_true ends])
      | cons d left =>
        have same := endsInWidth_plain all stop long
        have taken : RoundEnds front.length _ (some (front.length + ('%'.toUInt8 :: digits).length)) :=
          .takes List.cons_append.symm same
        rwa [← length, Nat.add_assoc, Nat.add_comm 1]
    · rcases inside k member with before | within
      · exact Nat.le_add_right_of_le (early k before)
      · exact within

theorem reads_start {rounds i arg : Nat} {p : Printed} (run : kvprintfFrom m fmt args rounds i arg = some p) :
    i ∈ p.reads := by
  cases rounds with
  | zero => cases run
  | succ rounds =>
    rw [kvprintfFrom] at run
    split at run
    · cases run
      exact List.mem_singleton.mpr rfl
    obtain ⟨r, _, rest⟩ := Option.bind_eq_some_iff.mp run
    cases last : r.last with
    | none =>
      rw [last] at rest
      cases rest
      exact List.mem_cons_self
    | some j =>
      rw [last] at rest
      obtain ⟨p', _, rfl⟩ := Option.map_eq_some_iff.mp rest
      exact List.mem_cons_self

theorem run_reads_inside (format : Format m fmt (front ++ rest)) (args : Nat → Nat) {rounds : Nat}
    (enough : rest.length < rounds) (inside : endsInWidth rest = false) (arg : Nat) :
    ∃ p, kvprintfFrom m fmt args rounds front.length arg = some p ∧
      ∀ k ∈ p.reads, k ≤ (front ++ rest).length := by
  induction rounds generalizing front rest arg with
  | zero => omega
  | succ rounds ih =>
    cases rest with
    | nil =>
      exact ⟨_, kvprintfFrom_ends format args rounds arg, by simp⟩
    | cons c rest =>
      obtain ⟨r, done, ends, reads⟩ := round_cases format args arg
      rw [← List.length_append] at reads
      have all : ∀ k ∈ front.length :: r.reads, k ≤ (front ++ c :: rest).length :=
        List.forall_mem_cons.mpr ⟨by simp, reads⟩
      generalize ended : r.last = last at ends
      cases ends with
      | leaves => exact ⟨_, kvprintfFrom_leaves format _ done ended, all⟩
      | passes past => simp [inside] at past
      | @takes used left d split same =>
        have later : Format m fmt (front ++ (used ++ [d]) ++ left) := by simpa [split] using format
        have whole : front ++ (used ++ [d]) ++ left = front ++ c :: rest := by simp [split]
        have next : u32 (front.length + used.length + 1) = (front ++ (used ++ [d])).length := by
          simpa [Nat.add_assoc] using later.next (Nat.zero_le _)
        have shorter := congrArg List.length split
        simp only [List.length_append, List.length_cons] at shorter enough
        obtain ⟨p, run, inner⟩ := ih later (by omega) (same ▸ inside) r.arg
        rw [whole] at inner
        refine ⟨_, by rw [kvprintfFrom_goesOn format _ done ended, next, run]; rfl, fun k member => ?_⟩
        rcases List.mem_append.mp member with early | late
        · exact all k early
        · exact inner k late

/-- A run past a width at the end of the format reads behind the NUL, or never ends. -/
theorem run_reads_past (format : Format m fmt text) (past : endsInWidth text = true) {rounds arg : Nat} {p : Printed}
    (split : text = front ++ rest) (here : endsInWidth rest = true)
    (run : kvprintfFrom m fmt args rounds front.length arg = some p) : ∃ k ∈ p.reads, text.length < k := by
  induction rounds generalizing front rest arg p with
  | zero => cases run
  | succ rounds ih =>
    cases rest with
    | nil => simp [endsInWidth] at here
    | cons c rest =>
      subst split
      obtain ⟨r, done, ends, _⟩ := round_cases format args arg
      generalize ended : r.last = last at ends
      cases ends with
      | leaves inside => simp [here] at inside
      | @takes used left d split same =>
        have whole : front ++ c :: rest = front ++ (used ++ [d]) ++ left := by simp [split]
        have later : Format m fmt (front ++ (used ++ [d]) ++ left) := whole ▸ format
        have next : u32 (front.length + used.length + 1) = (front ++ (used ++ [d])).length := by
          simpa [Nat.add_assoc] using later.next (Nat.zero_le _)
        rw [kvprintfFrom_goesOn format _ done ended, next] at run
        obtain ⟨p', inner, rfl⟩ := Option.map_eq_some_iff.mp run
        obtain ⟨k, member, beyond⟩ := ih whole (same ▸ here) inner
        exact ⟨k, List.mem_append_right _ member, beyond⟩
      | passes =>
        rw [kvprintfFrom_goesOn format _ done ended, ← List.length_append] at run
        obtain ⟨p', inner, rfl⟩ := Option.map_eq_some_iff.mp run
        by_cases fits : (front ++ c :: rest).length + 1 < 2 ^ 32
        · rw [u32_of_lt fits] at inner
          exact ⟨_, List.mem_append_right _ (reads_start inner), Nat.lt_succ_self _⟩
        · -- The index wraps around, and the run starts over.
          have short := format.short
          have wraps : u32 ((front ++ c :: rest).length + 1) = ([] : List UInt8).length := by
            rw [show (front ++ c :: rest).length + 1 = 2 ^ 32 by omega]
            rfl
          rw [wraps] at inner
          obtain ⟨k, member, beyond⟩ := ih (List.nil_append _).symm past inner
          exact ⟨k, List.mem_append_right _ member, beyond⟩

theorem readsInside_of_false (format : Format m fmt text) (args : Nat → Nat) (inside : endsInWidth text = false) :
    ReadsInside m fmt args text.length := by
  have whole : Format m fmt ([] ++ text) := format
  obtain ⟨p, run, reads⟩ := run_reads_inside whole args (Nat.lt_succ_self _) inside 0
  exact ⟨_, p, run, reads⟩

theorem not_readsInside (format : Format m fmt text) (args : Nat → Nat) (past : endsInWidth text = true) :
    ¬ReadsInside m fmt args text.length := by
  rintro ⟨rounds, p, run, inside⟩
  have run' : kvprintfFrom m fmt args rounds ([] : List UInt8).length 0 = some p := run
  obtain ⟨k, member, beyond⟩ := run_reads_past format past (List.nil_append text).symm past run'
  exact Nat.not_le_of_lt beyond (inside k member)

/-- A format is read up to its NUL and no further, whatever its arguments are, exactly if it does
not end behind the zero flag or in the width of a directive. -/
theorem kvprintf_reads_inside_iff (format : Format m fmt text) (args : Nat → Nat) :
    ReadsInside m fmt args text.length ↔ endsInWidth text = false := by
  refine ⟨fun inside => ?_, readsInside_of_false format args⟩
  by_contra other
  exact not_readsInside format args (by simpa using other) inside

end

/-- `%5`, a NUL, and an `A` behind it. -/
def fiveMemory : Bytes := bytesMemory ['%'.toUInt8, '5'.toUInt8, 0, 'A'.toUInt8]

theorem fiveMemory_format : Format fiveMemory 4096 ['%'.toUInt8, '5'.toUInt8] where
  short := by decide
  chars := by
    intro i inside
    obtain rfl | rfl | rfl : i = 0 ∨ i = 1 ∨ i = 2 := by
      simp only [List.length_cons, List.length_nil] at inside
      omega
    all_goals rfl
  noNul := by decide

theorem kvprintf_reads_inside_iff_five :
    ReadsInside fiveMemory 4096 (fun _ => 0) ['%'.toUInt8, '5'.toUInt8].length ↔
      endsInWidth ['%'.toUInt8, '5'.toUInt8] = false :=
  kvprintf_reads_inside_iff fiveMemory_format _

/-- The format `%5` is read up to the NUL behind the one that ends it. -/
theorem kvprintf_reads_past_nul :
    Format fiveMemory 4096 ['%'.toUInt8, '5'.toUInt8] ∧ ¬ReadsInside fiveMemory 4096 (fun _ => 0) 2 ∧
      (kvprintf fiveMemory 4096 (fun _ => 0) 3).map Printed.reads = some [0, 1, 1, 2, 3, 4] ∧
      (kvprintf fiveMemory 4096 (fun _ => 0) 3).map Printed.out = some ['%'.toUInt8, 0, 'A'.toUInt8] :=
  ⟨fiveMemory_format, not_readsInside fiveMemory_format _ (by decide +kernel), by decide +kernel, by decide +kernel⟩

end Kprintf

end LearningOS
