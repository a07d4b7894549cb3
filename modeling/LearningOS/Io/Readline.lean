import LearningOS.Io.Erase
import LearningOS.Store.LineEdit

namespace LearningOS
open LineEdit

/-- What `keyboard_readline` leaves: the value it returns, the buffer, the monitor, and the
results of `keyboard_getchar` that it has not asked for. -/
structure Readline where
  idx : Nat
  out : Nat → UInt8
  monitor : Monitor
  rest : List Int

/-- The loops of `keyboard_readline`, over what the calls of `keyboard_getchar` return. A negative
result halts until the next interrupt. -/
def readlineLoop (max : Int) (m : Monitor) (out : Nat → UInt8) (idx : Nat) : List Int → Option Readline
  | [] => if idx < max - 1 then none else some ⟨idx, Function.update out idx 0, m, []⟩
  | c :: cs =>
    if idx < max - 1 then
      if c < 0 then readlineLoop max m out idx cs
      else if c = 13 ∨ c = 10 then some ⟨idx, Function.update out idx 0, monitorPut m 10, cs⟩
      else if c = 8 ∨ c = 0x7F then
        if idx > 0 then readlineLoop max (monitorWrite m [8, 32, 8]) out (idx - 1) cs
        else readlineLoop max m out idx cs
      else
        readlineLoop max (monitorPut m (UInt8.ofNat c.toNat)) (Function.update out idx (UInt8.ofNat c.toNat)) (idx + 1) cs
    else some ⟨idx, Function.update out idx 0, m, c :: cs⟩

/-- `keyboard_readline`; it has not returned yet if there is no result. -/
def keyboardReadline (max : Int) (m : Monitor) (out : Nat → UInt8) (cs : List Int) : Option Readline :=
  if max ≤ 0 then some ⟨0, out, m, cs⟩ else readlineLoop max m out 0 cs

/-- The key that a result of `keyboard_getchar` stands for. -/
def keyOf (c : Int) : Option (Key UInt8) :=
  if c < 0 then none
  else if c = 13 ∨ c = 10 then some .enter
  else if c = 8 ∨ c = 0x7F then some .erase
  else some (.type (UInt8.ofNat c.toNat))

/-- No character, a character that the screen shows, or a key that edits. -/
def Typable (c : Int) : Prop := c < 0 ∨ c ∈ [8, 10, 13, 0x7F] ∨ 32 ≤ c ∧ c < 128

/-- The buffer has the text of a line and a zero, and its length is returned. -/
structure Readline.Returns (r : Readline) (line : Line UInt8) : Prop where
  idx : r.idx = line.text.length
  text : (List.range r.idx).map r.out = line.text
  zero : r.out r.idx = 0
  rest : r.rest.filterMap keyOf = line.rest

/-- What a line leaves on the screen. -/
def echoed (line : Line UInt8) : List UInt8 := if line.entered then line.text ++ [10] else line.text

/-- What is put out for a key that does not end the line. -/
def keyEcho (text : List UInt8) : Key UInt8 → List UInt8
  | .type b => [b]
  | .erase => if text = [] then [] else [8, 32, 8]
  | .enter => []

def keysEcho : List UInt8 → List (Key UInt8) → List UInt8
  | _, [] => []
  | text, k :: keys => keyEcho text k ++ keysEcho (k.apply text) keys

/-- What is put out while a line is read. -/
def lineEcho (used : List (Key UInt8)) (line : Line UInt8) : List UInt8 :=
  keysEcho [] used ++ if line.entered then [10] else []

/-- The row the screen begins with, after keys that edit a text behind a page. -/
def topRow (p : Page UInt8) : Nat → List UInt8 → List (Key UInt8) → Nat
  | top, _, [] => top
  | top, text, k :: keys => topRow p (topAfter p top (k.apply text)) (k.apply text) keys

section
variable {m : Monitor} {p : Page UInt8} {max : Int} {out : Nat → UInt8} {text : List UInt8} {cs : List Int} {c : Int}

theorem range_update (out : Nat → UInt8) (idx : Nat) (c : UInt8) :
    (List.range idx).map (Function.update out idx c) = (List.range idx).map out :=
  List.map_congr_left fun _ member => Function.update_of_ne (Nat.ne_of_lt (List.mem_range.mp member)) _ _

/-- The end of the buffer is marked. -/
theorem Readline.Returns.done (stored : (List.range text.length).map out = text) (m : Monitor) (entered : Bool)
    (cs : List Int) :
    Readline.Returns ⟨text.length, Function.update out text.length 0, m, cs⟩ ⟨text, entered, cs.filterMap keyOf⟩ where
  idx := rfl
  text := (range_update out text.length 0).trans stored
  zero := Function.update_self ..
  rest := rfl

/-- The loop goes by the keys of the results. -/
theorem readlineLoop_key {idx : Nat} (room : (idx : Int) < max - 1) :
    readlineLoop max m out idx (c :: cs) = match keyOf c with
      | none => readlineLoop max m out idx cs
      | some .enter => some ⟨idx, Function.update out idx 0, monitorPut m 10, cs⟩
      | some .erase =>
        if idx > 0 then readlineLoop max (monitorWrite m [8, 32, 8]) out (idx - 1) cs else readlineLoop max m out idx cs
      | some (.type b) => readlineLoop max (monitorPut m b) (Function.update out idx b) (idx + 1) cs := by
  rw [readlineLoop, if_pos room, keyOf]
  by_cases waits : c < 0
  · rw [if_pos waits, if_pos waits]
  rw [if_neg waits, if_neg waits]
  by_cases enter : c = 13 ∨ c = 10
  · rw [if_pos enter, if_pos enter]
  rw [if_neg enter, if_neg enter]
  by_cases erase : c = 8 ∨ c = 0x7F
  · rw [if_pos erase, if_pos erase]
  · rw [if_neg erase, if_neg erase]

theorem stored_type (stored : (List.range text.length).map out = text) (b : UInt8) :
    (List.range (text ++ [b]).length).map (Function.update out text.length b) = text ++ [b] := by
  rw [List.length_append, List.length_singleton, List.range_succ, List.map_append, range_update, stored]
  simp

theorem stored_erase (stored : (List.range text.length).map out = text) :
    (List.range text.dropLast.length).map out = text.dropLast := by
  have shorter := congrArg List.dropLast stored
  rwa [List.dropLast_eq_take, List.length_map, List.length_range, ← List.map_take, List.take_range,
    Nat.min_eq_left (Nat.sub_le ..), ← List.length_dropLast] at shorter

theorem update_behind {before : Nat → UInt8} (within : (text.length : Int) ≤ max - 1)
    (kept : ∀ i : Nat, max ≤ i → out i = before i) (b : UInt8) :
    ∀ i : Nat, max ≤ i → Function.update out text.length b i = before i := fun i outside =>
  (Function.update_of_ne (by omega) b out).trans (kept i outside)

theorem monitorWrite_append (m : Monitor) (first second : List UInt8) :
    monitorWrite m (first ++ second) = monitorWrite (monitorWrite m first) second := List.foldl_append

/-- The loop puts out the echo of a key that does not end the line, and goes on with the text after it. -/
theorem readlineLoop_step (m : Monitor) (cs : List Int) {k : Key UInt8} (stored : (List.range text.length).map out = text)
    (room : (text.length : Int) < max - 1) (key : keyOf c = some k) (plain : k ≠ .enter) :
    ∃ out', (List.range (k.apply text).length).map out' = k.apply text ∧
      (∀ i : Nat, max ≤ i → out' i = out i) ∧
      readlineLoop max m out text.length (c :: cs) =
        readlineLoop max (monitorWrite m (keyEcho text k)) out' (k.apply text).length cs := by
  rw [readlineLoop_key room, key]
  cases k with
  | enter => exact absurd rfl plain
  | type b =>
    refine ⟨Function.update out text.length b, stored_type stored b, update_behind (by omega) (fun _ _ => rfl) b, ?_⟩
    change _ = readlineLoop _ _ _ (text ++ [b]).length _
    rw [List.length_append]
    rfl
  | erase =>
    refine ⟨out, stored_erase stored, fun _ _ => rfl, ?_⟩
    by_cases none : text = []
    · subst none
      rfl
    · have some := List.length_pos_iff.mpr none
      change (if text.length > 0 then _ else _) = readlineLoop _ (monitorWrite m (if text = [] then [] else _)) _ _ _
      rw [if_pos some, if_neg none, ← List.length_dropLast]
      rfl

/-- The loop reads the line that its keys are, puts out its echo, and leaves what is behind its
buffer; it waits as long as the keys do not end a line. -/
theorem readlineLoop_reads (stored : (List.range text.length).map out = text) (within : (text.length : Int) ≤ max - 1) :
    match readlineLoop max m out text.length cs with
    | none => Waits (max - 1).toNat text (cs.filterMap keyOf)
    | some r => ∃ used line, Line.Reads (max - 1).toNat text (cs.filterMap keyOf) used line ∧ r.Returns line ∧
        (∀ i : Nat, max ≤ i → r.out i = out i) ∧
        r.monitor = monitorWrite m (keysEcho text used ++ if line.entered then [10] else []) := by
  induction cs generalizing m out text with
  | nil =>
    by_cases room : (text.length : Int) < max - 1
    · rw [readlineLoop, if_pos room]
      refine ⟨by simp, fun front back split => ?_⟩
      rw [(List.append_eq_nil_iff.mp split.symm).1]
      change text.length < _
      omega
    · rw [readlineLoop, if_neg room]
      exact ⟨[], _, .done (by omega) _, .done stored m false [], update_behind within (fun _ _ => rfl) 0, rfl⟩
  | cons c cs ih =>
    by_cases room : (text.length : Int) < max - 1
    · have inside : text.length < (max - 1).toNat := by omega
      cases key : keyOf c with
      | none =>
        rw [readlineLoop_key room, key, List.filterMap_cons_none key]
        exact ih stored within
      | some k =>
        rw [List.filterMap_cons_some key]
        by_cases plain : k ≠ .enter
        · obtain ⟨out', stored', kept, run⟩ := readlineLoop_step m cs stored room key plain
          have length : ((k.apply text).length : Int) ≤ max - 1 := by
            cases k with
            | type b =>
              change ((text ++ [b]).length : Int) ≤ _
              rw [List.length_append, List.length_singleton]
              omega
            | erase =>
              change (text.dropLast.length : Int) ≤ _
              rw [List.length_dropLast]
              omega
            | enter => exact within
          have rest := ih (m := monitorWrite m (keyEcho text k)) stored' length
          rw [run]
          generalize readlineLoop max (monitorWrite m (keyEcho text k)) out' (k.apply text).length cs = found at rest ⊢
          cases found with
          | none => exact rest.cons inside plain
          | some r =>
            obtain ⟨used, line, reads, returns, kept', shown⟩ := rest
            refine ⟨k :: used, line, reads.cons inside plain, returns, fun i outside => ?_, ?_⟩
            · exact (kept' i outside).trans (kept i outside)
            · rw [shown, keysEcho, List.append_assoc, monitorWrite_append m]
        · rw [readlineLoop_key room, key, not_not.mp plain]
          exact ⟨[], _, .enter inside _, .done stored (monitorPut m 10) true cs,
            update_behind within (fun _ _ => rfl) 0, rfl⟩
    · rw [readlineLoop, if_neg room]
      exact ⟨[], _, .done (by omega) _, .done stored m false (c :: cs), update_behind within (fun _ _ => rfl) 0, rfl⟩

theorem keyOf_typable {b : UInt8} (key : keyOf c = some (.type b)) (typable : Typable c) : 32 ≤ b ∧ b < 128 := by
  have special : 0 ≤ c ∧ ¬(c = 13 ∨ c = 10) ∧ ¬(c = 8 ∨ c = 0x7F) ∧ UInt8.ofNat c.toNat = b := by
    unfold keyOf at key
    split at key
    · exact nomatch key
    · split at key
      · exact nomatch key
      · split at key
        · exact nomatch key
        · rename_i positive enter erase
          exact ⟨Int.not_lt.mp positive, enter, erase, Key.type.inj (Option.some.inj key)⟩
  obtain ⟨positive, enter, erase, rfl⟩ := special
  rcases typable with negative | member | ⟨lower, upper⟩
  · omega
  · simp only [List.mem_cons, List.not_mem_nil, or_false] at member
    omega
  · rw [UInt8.le_iff_toNat_le, UInt8.lt_iff_toNat_lt, UInt8.toNat_ofNat']
    change 32 ≤ _ ∧ _ < 128
    omega

theorem not_newline {text : List UInt8} (printable : ∀ b ∈ text, 32 ≤ b ∧ b < 128) : ∀ b ∈ text, b ≠ 10 := by
  rintro b member rfl
  exact absurd (printable 10 member).1 (by decide)

/-- While keys edit a text behind a page, the screen shows what they have left of it. -/
theorem ShowsLine.keys {used : List (Key UInt8)} {top : Nat} (shown : ShowsLine m p text top) (room : p.row.length < 80)
    (printable : ∀ b ∈ text, 32 ≤ b ∧ b < 128) (typed : ∀ b, .type b ∈ used → 32 ≤ b ∧ b < 128)
    (short : ∀ front back, used = front ++ back → back ≠ [] → (edited text front).length < 1920) :
    ShowsLine (monitorWrite m (keysEcho text used)) p (edited text used) (topRow p top text used) ∧
      ∀ b ∈ edited text used, 32 ≤ b ∧ b < 128 := by
  induction used generalizing m text top with
  | nil => exact ⟨shown, printable⟩
  | cons k used ih =>
    have few : text.length < 1920 := short [] (k :: used) rfl (List.cons_ne_nil _ _)
    have others : ∀ b, .type b ∈ used → 32 ≤ b ∧ b < 128 := fun b member => typed b (List.mem_cons_of_mem k member)
    have later (front back : List (Key UInt8)) (split : used = front ++ back) (more : back ≠ []) :
        (edited (k.apply text) front).length < 1920 := short (k :: front) back (congrArg _ split) more
    rw [keysEcho, monitorWrite_append]
    cases k with
    | enter => exact ih shown.same printable others later
    | type b =>
      have plain := typed b List.mem_cons_self
      exact ih (shown.type room (not_newline printable) few plain)
        (List.forall_mem_append.mpr ⟨printable, List.forall_mem_singleton.mpr plain⟩) others later
    | erase =>
      rcases List.eq_nil_or_concat text with none | ⟨front, b, some⟩
      · subst none
        exact ih shown.same printable others later
      · rw [List.concat_eq_append] at some
        subst some
        have erased := shown.erase room (not_newline printable)
        have left : Key.apply (front ++ [b]) .erase = front := List.dropLast_concat
        rw [keyEcho, if_neg (by simp)]
        rw [left] at later
        have rest := ih erased (List.forall_mem_append.mp printable).1 others later
        rw [← left] at rest
        exact rest

/-- The screen after a line, from the row on that its longest text has left. -/
theorem Shows.line {line : Line UInt8} {used keys : List (Key UInt8)} {limit : Nat} (shown : Shows m p)
    (room : p.row.length < 80) (small : limit ≤ 1920) (reads : line.Reads limit [] keys used)
    (typed : ∀ b, .type b ∈ used → 32 ≤ b ∧ b < 128) :
    topRow p (p.rows.length - 25) [] used ≤ p.ended.length ∧
      Shows (monitorWrite m (lineEcho used line)) ((typedOn p (echoed line)).skip (topRow p (p.rows.length - 25) [] used)) := by
  obtain ⟨⟨begins, here, within, _⟩, printable⟩ := shown.showsLine.keys room (by simp) typed
    fun front back split more => (reads.short front back split more).trans_le small
  rw [← reads.leaves] at here within printable
  refine ⟨begins, ?_⟩
  rw [lineEcho, monitorWrite_append, echoed]
  by_cases entered : line.entered = true
  · rw [if_pos entered, if_pos entered, typedOn_snoc, ← Page.put_skip within]
    exact here.next (typedOn_size room (not_newline printable)).1 (.inl rfl)
  · rw [if_neg entered, if_neg entered]
    exact here

theorem keyboardReadline_reads (positive : 0 < max) (m : Monitor) (out : Nat → UInt8) (cs : List Int) :
    match keyboardReadline max m out cs with
    | none => Waits (max - 1).toNat [] (cs.filterMap keyOf)
    | some r => ∃ used line, Line.Reads (max - 1).toNat [] (cs.filterMap keyOf) used line ∧ r.Returns line ∧
        (∀ i : Nat, max ≤ i → r.out i = out i) ∧ r.monitor = monitorWrite m (lineEcho used line) := by
  rw [keyboardReadline, if_neg (by omega)]
  have none : (List.range ([] : List UInt8).length).map out = [] := rfl
  exact readlineLoop_reads none (by rw [List.length_nil]; omega)

/-- The keys that a line uses up are those of the results. -/
theorem typed_printable {line : Line UInt8} {used : List (Key UInt8)} {limit : Nat}
    (reads : line.Reads limit text (cs.filterMap keyOf) used) (typable : ∀ c ∈ cs, Typable c) (b : UInt8)
    (member : .type b ∈ used) : 32 ≤ b ∧ b < 128 := by
  have inside : Key.type b ∈ cs.filterMap keyOf := by
    cases entered : line.entered with
    | true =>
      rw [(reads.entered entered).1]
      exact List.mem_append_left _ member
    | false =>
      rw [(reads.full entered).1]
      exact List.mem_append_left _ member
  obtain ⟨c, among, key⟩ := List.mem_filterMap.mp inside
  exact keyOf_typable key (typable c among)

end

/-- `keyboard_readline` returns the line that the keys make, edited, once they end it; it waits as
long as they do not, and writes nothing behind its buffer. On a screen with room for the line it
leaves what is left of the text, below the rows that its longest text has moved off the screen. -/
theorem keyboardReadline_edits {max : Int} (positive : 0 < max) (m : Monitor) (out : Nat → UInt8) (cs : List Int) :
    match keyboardReadline max m out cs with
    | none => Waits (max - 1).toNat [] (cs.filterMap keyOf)
    | some r => ∃ used, ∃ line : Line UInt8, line.Reads (max - 1).toNat [] (cs.filterMap keyOf) used ∧ r.Returns line ∧
        (∀ i : Nat, max ≤ i → r.out i = out i) ∧
        ∀ p, Shows m p → p.row.length < 80 → max ≤ 1921 → (∀ c ∈ cs, Typable c) →
          topRow p (p.rows.length - 25) [] used ≤ p.ended.length ∧
            Shows r.monitor ((typedOn p (echoed line)).skip (topRow p (p.rows.length - 25) [] used)) := by
  have spec := keyboardReadline_reads positive m out cs
  generalize keyboardReadline max m out cs = found at spec ⊢
  cases found with
  | none => exact spec
  | some r =>
    obtain ⟨used, line, reads, returns, kept, echo⟩ := spec
    refine ⟨used, line, reads, returns, kept, fun p shown room small typable => ?_⟩
    rw [echo]
    exact shown.line room (by omega) reads (typed_printable reads typable)

/-- A character is taken back, and another one typed. -/
theorem keyboardReadline_edits_corrected :
    (0 : Int) < 4 ∧ (keyboardReadline 4 clearScreen (fun _ => 0) [97, -1, 8, 98, 13]).map Readline.idx = some 1 ∧
      match keyboardReadline 4 clearScreen (fun _ => 0) [97, -1, 8, 98, 13] with
      | none => Waits (4 - 1 : Int).toNat [] ([97, -1, 8, 98, 13].filterMap keyOf)
      | some r => ∃ used, ∃ line : Line UInt8,
          line.Reads (4 - 1 : Int).toNat [] ([97, -1, 8, 98, 13].filterMap keyOf) used ∧ r.Returns line ∧
          (∀ i : Nat, (4 : Int) ≤ i → r.out i = 0) ∧
          ∀ p, Shows clearScreen p → p.row.length < 80 → (4 : Int) ≤ 1921 → (∀ c ∈ [97, -1, 8, 98, 13], Typable c) →
            topRow p (p.rows.length - 25) [] used ≤ p.ended.length ∧
              Shows r.monitor ((typedOn p (echoed line)).skip (topRow p (p.rows.length - 25) [] used)) :=
  ⟨by decide, by decide, keyboardReadline_edits (show (0 : Int) < 4 by decide) clearScreen (fun _ => 0) [97, -1, 8, 98, 13]⟩

end LearningOS
