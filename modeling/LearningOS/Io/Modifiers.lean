import LearningOS.Io.Console

namespace LearningOS

/-- What is printed on a key: a letter, or a character and the one above it. -/
inductive KeyCap
  | letter (c : Char)
  | symbols (plain shifted : Char)

def letters (row : String) : List (Option KeyCap) := row.toList.map fun c => some (.letter c)

def symbols (plain shifted : String) : List (Option KeyCap) :=
  (plain.toList.zip shifted.toList).map fun p => some (.symbols p.1 p.2)

/-- A key that is the same with shift. -/
def same (c : Char) : List (Option KeyCap) := [some (.symbols c c)]

/-- A key without a character. -/
def silent : List (Option KeyCap) := [none]

/-- The US layout by scancode: escape, the row of digits, backspace, tab, the three rows of
letters with what is beside them, the star of the keypad and the space bar. -/
def usLayout : List (Option KeyCap) :=
  silent ++ same (Char.ofNat 27) ++ symbols "1234567890-=" "!@#$%^&*()_+" ++ same (Char.ofNat 8) ++
  same (Char.ofNat 9) ++ letters "qwertyuiop" ++ symbols "[]" (String.ofList [Char.ofNat 123, Char.ofNat 125]) ++
  same (Char.ofNat 10) ++ silent ++
  letters "asdfghjkl" ++ symbols ";" ":" ++ symbols (String.ofList [Char.ofNat 39, Char.ofNat 96])
    (String.ofList [Char.ofNat 34, Char.ofNat 126]) ++
  silent ++ symbols (String.ofList [Char.ofNat 92]) "|" ++ letters "zxcvbnm" ++ symbols ",./" "<>?" ++ silent ++
  same '*' ++ silent ++ same ' '

/-- Letters are upper-case exactly if caps lock and shift differ; the other keys go by shift. -/
def KeyCap.char (shift caps : Bool) : KeyCap → Char
  | .letter c => if caps = shift then c else c.toUpper
  | .symbols plain shifted => if shift then shifted else plain

/-- The character the layout gives for a scancode. -/
def usChar (shift caps : Bool) (scancode : UInt8) : Option UInt8 :=
  (usLayout.getD scancode.toNat none).map fun key => (key.char shift caps).toUInt8

/-- `keyboard_handler` for each of a number of scancodes, the latest first. -/
def handleKeys (k : Console) : List UInt8 → Console
  | [] => k
  | scancode :: past => keyboardHandler (handleKeys k past) scancode

/-- A key is down if its latest scancode is that of a press. -/
def isDown (past : List UInt8) (key : UInt8) : Bool := past.find? (· &&& 0x7F = key) = some key

def shiftDown (past : List UInt8) : Bool := isDown past 0x2A || isDown past 0x36

/-- Caps lock was pressed an odd number of times. -/
def capsLocked (past : List UInt8) : Bool := past.count 0x3A % 2 = 1

/-- The latest scancode of a shift key. -/
def latestShift (past : List UInt8) : Option UInt8 := past.find? fun sc => sc &&& 0x7F = 0x2A || sc &&& 0x7F = 0x36

/-- A key is pressed when it is up and released when it is down. -/
def Alternating (history : List UInt8) : Prop :=
  ∀ sc past, sc :: past <:+ history → (sc &&& 0x80 = 0 ↔ isDown past (sc &&& 0x7F) = false)

/-- At each scancode the handler pushes the character of the layout, if there is one. -/
def TracksKeys (k : Console) (history : List UInt8) : Prop :=
  ∀ sc past, sc :: past <:+ history →
    typed (handleKeys k past) sc = usChar (shiftDown past) (capsLocked past) sc

section
variable {k : Console} {past : List UInt8} {sc : UInt8}

theorem typed_eq_usChar (k : Console) (sc : UInt8) : typed k sc = usChar k.shiftPressed k.capsLock sc := by
  have all : ∀ shift caps : Bool, ∀ n : Fin 256,
      (if UInt8.ofFin n &&& 0x80 ≠ 0 ∨ UInt8.ofFin n = 0x2A ∨ UInt8.ofFin n = 0x36 ∨ UInt8.ofFin n = 0x3A ∨
        keyChar shift caps (UInt8.ofFin n) = 0 then none
      else some (keyChar shift caps (UInt8.ofFin n)).toUInt8) = usChar shift caps (UInt8.ofFin n) := by decide +kernel
  exact all k.shiftPressed k.capsLock sc.toFin

theorem press_key (press : sc &&& 0x80 = 0) : sc &&& 0x7F = sc := by
  have all : ∀ n : Fin 256, UInt8.ofFin n &&& 0x80 = 0 → UInt8.ofFin n &&& 0x7F = UInt8.ofFin n := by decide +kernel
  exact all sc.toFin press

theorem Console.push_modifiers (k : Console) (c : Int8) :
    (k.push c).shiftPressed = k.shiftPressed ∧ (k.push c).capsLock = k.capsLock := by
  unfold Console.push
  split
  · exact ⟨rfl, rfl⟩
  · exact ⟨rfl, rfl⟩

theorem keyboardHandler_shiftPressed (k : Console) (sc : UInt8) :
    (keyboardHandler k sc).shiftPressed =
      if sc &&& 0x7F = 0x2A ∨ sc &&& 0x7F = 0x36 then decide (sc &&& 0x80 = 0) else k.shiftPressed := by
  unfold keyboardHandler
  by_cases release : sc &&& 0x80 ≠ 0
  · rw [if_pos release, decide_eq_false release]
    split
    · rfl
    · rfl
  have press : sc &&& 0x80 = 0 := not_not.mp release
  rw [if_neg release, press_key press, decide_eq_true press]
  by_cases shift : sc = 0x2A ∨ sc = 0x36
  · rw [if_pos shift, if_pos shift]
  rw [if_neg shift, if_neg shift]
  split
  · rfl
  · rw [if_pos (press_lt press)]
    exact (k.push_modifiers _).1

theorem keyboardHandler_capsLock (k : Console) (sc : UInt8) :
    (keyboardHandler k sc).capsLock = if sc = 0x3A then !k.capsLock else k.capsLock := by
  unfold keyboardHandler
  by_cases caps : sc = 0x3A
  · subst caps
    rfl
  rw [if_neg caps]
  split_ifs
  · rfl
  · rfl
  · rfl
  · exact (k.push_modifiers _).2
  · rfl

theorem latestShift_cons (sc : UInt8) (past : List UInt8) :
    latestShift (sc :: past) = if sc &&& 0x7F = 0x2A ∨ sc &&& 0x7F = 0x36 then some sc else latestShift past := by
  rw [latestShift, List.find?_cons]
  by_cases isShift : sc &&& 0x7F = 0x2A ∨ sc &&& 0x7F = 0x36
  · have found : (sc &&& 0x7F = 0x2A || sc &&& 0x7F = 0x36) = true := by simpa using isShift
    rw [if_pos isShift, found]
  · have other : (sc &&& 0x7F = 0x2A || sc &&& 0x7F = 0x36) = false := by simpa using isShift
    rw [if_neg isShift, other, latestShift]

theorem capsLocked_cons (sc : UInt8) (past : List UInt8) :
    capsLocked (sc :: past) = if sc = 0x3A then !capsLocked past else capsLocked past := by
  unfold capsLocked
  rw [List.count_cons]
  by_cases isCaps : sc = 0x3A
  · subst isCaps
    rw [if_pos BEq.rfl, if_pos rfl, ← decide_not]
    exact decide_eq_decide.mpr (by omega)
  · rw [if_neg (by simpa using isCaps), if_neg isCaps, Nat.add_zero]

/-- The two flags of the handler: the latest scancode of a shift key was that of a press, and caps
lock was pressed an odd number of times. -/
theorem handleKeys_modifiers (shift : k.shiftPressed = false) (caps : k.capsLock = false) (past : List UInt8) :
    (handleKeys k past).shiftPressed = (latestShift past).any (· &&& 0x80 = 0) ∧
      (handleKeys k past).capsLock = capsLocked past := by
  induction past with
  | nil => exact ⟨shift, caps⟩
  | cons sc past ih =>
    rw [handleKeys, keyboardHandler_shiftPressed, keyboardHandler_capsLock, ih.1, ih.2, latestShift_cons,
      capsLocked_cons]
    refine ⟨?_, rfl⟩
    split
    · rfl
    · rfl

/-- The key of the latest scancode of a shift key is down if that was the scancode of a press. -/
theorem shiftDown_of_press (latest : latestShift past = some sc) (press : sc &&& 0x80 = 0) : shiftDown past = true := by
  obtain ⟨key, later, earlier, split, none⟩ := List.find?_eq_some_iff_append.mp latest
  have down (code : UInt8) (shift : code = 0x2A ∨ code = 0x36) (isKey : sc &&& 0x7F = code) :
      isDown past code = true := by
    have found : past.find? (· &&& 0x7F = code) = some sc := by
      refine List.find?_eq_some_iff_append.mpr ⟨by simpa using isKey, later, earlier, split, fun d member => ?_⟩
      have other := none d member
      rcases shift with rfl | rfl
      · simp_all
      · simp_all
    rw [isDown, found, ← isKey, press_key press]
    exact decide_eq_true rfl
  rw [shiftDown, Bool.or_eq_true]
  have which : sc &&& 0x7F = 0x2A ∨ sc &&& 0x7F = 0x36 := by simpa using key
  exact which.imp (down _ (Or.inl rfl)) (down _ (Or.inr rfl))

theorem latestShift_of_shiftDown (held : shiftDown past = true) : ∃ sc, latestShift past = some sc := by
  have found (code : UInt8) (shift : code = 0x2A ∨ code = 0x36) (down : isDown past code = true) :
      ∃ sc, latestShift past = some sc := by
    have member : code ∈ past := List.mem_of_find?_eq_some (of_decide_eq_true down)
    refine Option.isSome_iff_exists.mp (List.find?_isSome.mpr ⟨code, member, ?_⟩)
    rcases shift with rfl | rfl
    · rfl
    · rfl
  rcases (Bool.or_eq_true ..).mp held with left | right
  · exact found _ (Or.inl rfl) left
  · exact found _ (Or.inr rfl) right

/-- The handler pushes what the layout gives unless the key goes by shift, a shift key is held, and
the latest scancode of a shift key was that of a release. -/
theorem usChar_shift_iff (caps : Bool) (past : List UInt8) (sc : UInt8) :
    usChar ((latestShift past).any (· &&& 0x80 = 0)) caps sc = usChar (shiftDown past) caps sc ↔
      (usChar true caps sc ≠ usChar false caps sc → shiftDown past = true →
        ∀ d, latestShift past = some d → d &&& 0x80 = 0) := by
  cases held : shiftDown past with
  | false =>
    refine iff_of_true ?_ (fun _ down => by cases down)
    cases latest : latestShift past with
    | none => rfl
    | some d =>
      have release : ¬ d &&& 0x80 = 0 := fun press => by simp [shiftDown_of_press latest press] at held
      rw [Option.any_some, decide_eq_false release]
  | true =>
    obtain ⟨d, latest⟩ := latestShift_of_shiftDown held
    rw [latest, Option.any_some]
    by_cases press : d &&& 0x80 = 0
    · rw [decide_eq_true press]
      exact iff_of_true rfl fun _ _ e same => Option.some.inj same ▸ press
    · rw [decide_eq_false press]
      refine ⟨fun same differ => absurd same.symm differ, fun all => ?_⟩
      by_contra differ
      exact press (all (Ne.symm differ) rfl d rfl)

/-- Over every sequence of scancodes the handler pushes the characters of the layout exactly if no
key that goes by shift is pressed while a shift key is held and the other was released since. -/
theorem keyboard_tracks_keys_iff (shift : k.shiftPressed = false) (caps : k.capsLock = false) (history : List UInt8) :
    TracksKeys k history ↔ ∀ sc past, sc :: past <:+ history →
      usChar true (capsLocked past) sc ≠ usChar false (capsLocked past) sc → shiftDown past = true →
        ∀ d, latestShift past = some d → d &&& 0x80 = 0 := by
  refine forall_congr' fun sc => forall_congr' fun past => forall_congr' fun _ => ?_
  obtain ⟨flag, locked⟩ := handleKeys_modifiers shift caps past
  rw [typed_eq_usChar, flag, locked]
  exact usChar_shift_iff (capsLocked past) past sc

end

/-- Both shift keys are pressed, the right one is released, and `a` is pressed; the latest scancode
first. -/
def bothShifts : List UInt8 := [0x1E, 0xB6, 0x36, 0x2A]

/-- With the left shift key down the handler pushes `a` where the layout gives `A`. -/
theorem keyboard_loses_shift :
    ¬ ∀ history, Alternating history → TracksKeys consoleStart history := by
  intro claimed
  have alternating : Alternating bothShifts := by
    intro sc past suffix
    simp only [bothShifts, List.suffix_cons_iff, List.cons.injEq, List.suffix_nil, reduceCtorEq, or_false] at suffix
    rcases suffix with ⟨rfl, rfl⟩ | ⟨rfl, rfl⟩ | ⟨rfl, rfl⟩ | ⟨rfl, rfl⟩
    all_goals decide
  have wrong := claimed bothShifts alternating 0x1E [0xB6, 0x36, 0x2A] (List.suffix_refl _)
  revert wrong
  decide +kernel

theorem keyboard_tracks_keys_iff_both :
    TracksKeys consoleStart bothShifts ↔ ∀ sc past, sc :: past <:+ bothShifts →
      usChar true (capsLocked past) sc ≠ usChar false (capsLocked past) sc → shiftDown past = true →
        ∀ d, latestShift past = some d → d &&& 0x80 = 0 :=
  keyboard_tracks_keys_iff rfl rfl bothShifts

end LearningOS
