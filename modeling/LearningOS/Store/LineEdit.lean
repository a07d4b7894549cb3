import Mathlib.Data.List.Basic

namespace LineEdit

/-- A key types a character, takes the last one back, or ends the line. -/
inductive Key (α : Type)
  | type (c : α)
  | erase
  | enter

/-- A line that was read: its text, whether a key ended it, and the keys that are left. -/
structure Line (α : Type) where
  text : List α
  entered : Bool
  rest : List (Key α)

variable {α : Type} {limit : Nat} {text : List α} {keys : List (Key α)} {line : Line α}

/-- The text after a key. -/
def Key.apply (text : List α) : Key α → List α
  | type c => text ++ [c]
  | erase => text.dropLast
  | enter => text

def edited (text : List α) (keys : List (Key α)) : List α := keys.foldl Key.apply text

/-- A line uses up the keys before its end, none of which ends it, and its text is what they
leave; it goes on as long as it is shorter than the limit. -/
structure Line.Reads (limit : Nat) (text : List α) (keys used : List (Key α)) (line : Line α) : Prop where
  plain : ∀ k ∈ used, k ≠ .enter
  leaves : line.text = edited text used
  short : ∀ front back, used = front ++ back → back ≠ [] → (edited text front).length < limit
  entered : line.entered = true → keys = used ++ .enter :: line.rest ∧ line.text.length < limit
  full : line.entered = false → keys = used ++ line.rest ∧ limit ≤ line.text.length

/-- A line that has not ended after some keys. -/
def Waits (limit : Nat) (text : List α) (keys : List (Key α)) : Prop :=
  (∀ k ∈ keys, k ≠ .enter) ∧ ∀ front back, keys = front ++ back → (edited text front).length < limit

namespace Line.Reads

theorem enter (room : text.length < limit) (keys : List (Key α)) :
    Line.Reads limit text (.enter :: keys) [] ⟨text, true, keys⟩ where
  plain := nofun
  leaves := rfl
  short := fun _ _ split some => absurd (List.append_eq_nil_iff.mp split.symm).2 some
  entered := fun _ => ⟨rfl, room⟩
  full := nofun

theorem done (full : ¬ text.length < limit) (keys : List (Key α)) :
    Line.Reads limit text keys [] ⟨text, false, keys⟩ where
  plain := nofun
  leaves := rfl
  short := fun _ _ split some => absurd (List.append_eq_nil_iff.mp split.symm).2 some
  entered := nofun
  full := fun _ => ⟨rfl, Nat.le_of_not_lt full⟩

theorem cons {k : Key α} {used : List (Key α)} (reads : line.Reads limit (k.apply text) keys used)
    (room : text.length < limit) (plain : k ≠ .enter) : line.Reads limit text (k :: keys) (k :: used) where
  plain := List.forall_mem_cons.mpr ⟨plain, reads.plain⟩
  leaves := reads.leaves
  short := by
    intro front back split some
    cases front with
    | nil => exact room
    | cons f front =>
      obtain ⟨rfl, rest⟩ := List.cons.inj split
      exact reads.short front back rest some
  entered := fun ends => ⟨congrArg _ (reads.entered ends).1, (reads.entered ends).2⟩
  full := fun ends => ⟨congrArg _ (reads.full ends).1, (reads.full ends).2⟩

end Line.Reads

theorem Waits.cons {k : Key α} (waits : Waits limit (k.apply text) keys) (room : text.length < limit)
    (plain : k ≠ .enter) : Waits limit text (k :: keys) := by
  refine ⟨List.forall_mem_cons.mpr ⟨plain, waits.1⟩, fun front back split => ?_⟩
  cases front with
  | nil => exact room
  | cons f front =>
    obtain ⟨rfl, rest⟩ := List.cons.inj split
    exact waits.2 front back rest

/-- A line has at most as many characters as it may. -/
theorem Line.Reads.length_le {used : List (Key α)} (reads : line.Reads limit text keys used)
    (within : text.length ≤ limit) : line.text.length ≤ limit := by
  rw [reads.leaves]
  rcases List.eq_nil_or_concat used with rfl | ⟨front, k, rfl⟩
  · exact within
  · rw [List.concat_eq_append] at reads ⊢
    have before := reads.short front [k] rfl (List.cons_ne_nil k [])
    rw [edited, List.foldl_append]
    change (k.apply (edited text front)).length ≤ limit
    cases k with
    | type c =>
      change (edited text front ++ [c]).length ≤ limit
      rw [List.length_append]
      exact before
    | erase =>
      change (edited text front).dropLast.length ≤ limit
      rw [List.length_dropLast]
      omega
    | enter => exact Nat.le_of_lt before

end LineEdit
