import LearningOS.User.ShellView
import LearningOS.User.ShellWords

namespace LearningOS
open LineEdit CommandLine

/-- What a shell does in a number of rounds with the keys it is given: in each round they make a
line, the words of the line are a command, and the prompt, the echo of the line and what the
command puts out are shown. The keys behind the line are left. -/
inductive SessionDoes (v : ShellView) (keys : List (Key UInt8)) :
    Nat → ShellView → List (Key UInt8) → List UInt8 → Prop
  | start : SessionDoes v keys 0 v keys []
  | round {rounds u before shown used line w out} (session : SessionDoes v keys rounds u before shown)
      (reads : Line.Reads 127 [] before used line) (does : ShellDoes u ((lineWords line.text).take 8) w out) :
      SessionDoes v keys (rounds + 1) w line.rest (shown ++ (ascii "\n> " ++ lineEcho used line ++ out))

/-- The keys that are left of a session. -/
def Session.keys (s : Session) : List (Key UInt8) := s.cs.filterMap keyOf

/-- A session asks for more input, or its command is one that may not return. -/
def Session.Halts (s : Session) : Prop :=
  Waits 127 [] s.keys ∨
    ∃ used line, Line.Reads 127 [] s.keys used line ∧ ShellStuck s.shell.view ((lineWords line.text).take 8)

/-- The rounds of a session so far: it is in order, has done what they do, and the monitor has been
given what they show. -/
def Session.Did (hello : Nat) (others : List Nat) (v : ShellView) (keys : List (Key UInt8)) (m : Monitor) (rounds : Nat)
    (s : Session) : Prop :=
  (∃ kids, ShellInv hello others s.shell kids) ∧
    ∃ shown, SessionDoes v keys rounds s.shell.view s.keys shown ∧ s.monitor = monitorWrite m shown

section
variable {hello : Nat} {others : List Nat} {kids : List (Fin 9)} {v : ShellView} {keys : List (Key UInt8)} {m : Monitor}
  {s t : Session} {rounds : Nat}

theorem buffer_split {line : Line UInt8} {r : Readline} (returns : r.Returns line) (inside : r.idx < 128) :
    ∃ rest, (List.range 128).map r.out = line.text ++ 0 :: rest := by
  refine ⟨(List.range' (r.idx + 1) (127 - r.idx)).map r.out, ?_⟩
  rw [← returns.text, ← returns.zero, ← List.map_cons, ← List.map_append]
  refine congrArg (List.map r.out) ?_
  have first := List.range'_append_1 (s := 0) (m := r.idx) (n := 128 - r.idx)
  rw [show r.idx + (128 - r.idx) = 128 by omega, Nat.zero_add, show 128 - r.idx = 127 - r.idx + 1 by omega,
    List.range'_succ, ← List.range_eq_range', ← List.range_eq_range'] at first
  exact first.symm

/-- The arguments of a line are its words. -/
theorem shellArguments_eq {line : Line UInt8} {r : Readline} (returns : r.Returns line) (inside : r.idx < 128) :
    (shellArguments r.out).1 = (lineWords line.text).take 8 := by
  obtain ⟨rest, buffer⟩ := buffer_split returns inside
  have length := returns.idx
  rw [shellArguments, buffer]
  exact parseLine_words (by omega) rest 8

theorem lineWords_nil : lineWords [] = [] := by
  rw [lineWords]
  exact wordsOf.eq_1

/-- A round does what its line says, or the shell halts. -/
theorem shellRound_did (did : s.Did hello others v keys m rounds) : match shellRound s with
    | none => s.Halts
    | some t => t.Did hello others v keys m (rounds + 1) := by
  obtain ⟨⟨kids, inv⟩, shown, session, screen⟩ := did
  have read := keyboardReadline_reads (show (0 : Int) < 128 by decide) (monitorWrite s.monitor (ascii "\n> ")) s.line s.cs
  rw [shellRound]
  cases found : keyboardReadline 128 (monitorWrite s.monitor (ascii "\n> ")) s.line s.cs with
  | none =>
    rw [found] at read
    exact .inl read
  | some r =>
    rw [found] at read
    obtain ⟨used, line, reads, returns, _, echo⟩ := read
    have short := reads.length_le (Nat.zero_le _)
    have idx := returns.idx
    have words := shellArguments_eq returns (by omega)
    have quiet (buffer : Nat → UInt8) (none : (lineWords line.text).take 8 = []) :
        (⟨s.shell, r.monitor, buffer, r.rest⟩ : Session).Did hello others v keys m (rounds + 1) := by
      have does : ShellDoes s.shell.view ((lineWords line.text).take 8) s.shell.view [] := none ▸ .files rfl .same
      refine ⟨⟨kids, inv⟩, _, returns.rest ▸ session.round reads does, ?_⟩
      rw [echo, screen, List.append_nil, ← monitorWrite_append, ← monitorWrite_append]
    rw [Option.bind_some]
    by_cases empty : r.idx = 0
    · rw [if_pos empty]
      refine quiet r.out ?_
      rw [List.length_eq_zero_iff.mp (idx.symm.trans empty), lineWords_nil]
      rfl
    rw [if_neg empty]
    generalize split : shellArguments r.out = arguments at words
    obtain ⟨args, text⟩ := arguments
    obtain rfl : args = (lineWords line.text).take 8 := words
    dsimp only
    by_cases none : (lineWords line.text).take 8 = []
    · rw [if_pos none]
      exact quiet _ none
    rw [if_neg none]
    have fits : ∀ a ∈ (lineWords line.text).take 8, a.length ≤ 127 := fun a member =>
      (lineWords_length line.text a (List.mem_of_mem_take member)).trans short
    have done := shellCommand_done inv fits
    cases command : shellCommand s.shell ((lineWords line.text).take 8) with
    | none =>
      rw [command] at done
      exact .inr ⟨used, line, reads, done⟩
    | some said =>
      rw [command] at done
      refine ⟨done.1, _, returns.rest ▸ session.round reads done.2, ?_⟩
      change monitorWrite r.monitor said.out = _
      rw [echo, screen, ← monitorWrite_append, ← monitorWrite_append, ← monitorWrite_append, List.append_assoc]

theorem shellRounds_did (did : s.Did hello others v keys m rounds) (more : Nat) : match shellRounds more s with
    | none => ∃ before < more, ∃ t, shellRounds before s = some t ∧ t.Did hello others v keys m (rounds + before) ∧ t.Halts
    | some t => t.Did hello others v keys m (rounds + more) := by
  induction more generalizing s rounds with
  | zero => exact did
  | succ more ih =>
    have first := shellRound_did did
    rw [shellRounds]
    cases round : shellRound s with
    | none =>
      rw [round] at first
      exact ⟨0, Nat.succ_pos _, s, rfl, did, first⟩
    | some t =>
      rw [round] at first
      have rest := ih first
      rw [Option.bind_some]
      cases later : shellRounds more t with
      | none =>
        rw [later] at rest
        obtain ⟨before, less, u, run, rest, halts⟩ := rest
        refine ⟨before + 1, Nat.succ_lt_succ less, u, ?_, ?_, halts⟩
        · rw [shellRounds, round]
          exact run
        · rwa [Nat.add_assoc, Nat.add_comm 1] at rest
      | some u =>
        rw [later] at rest
        rwa [Nat.add_assoc, Nat.add_comm 1] at rest

end

/-- A session of the shell does for the keys that are typed what a shell on the listing and the
volume does, round for round, and the monitor is given the help, the prompts, the echo of the lines
and what the commands put out; it stops only for more input or in a command on the volume. -/
theorem shell_session_refines {hello : Nat} {others : List Nat} {s : Shell} {kids : List (Fin 9)}
    (inv : ShellInv hello others s kids) (m : Monitor) (line : Nat → UInt8) (cs : List Int) (rounds : Nat) :
    match shellRounds rounds (shellRun s m line cs) with
    | none => ∃ before < rounds, ∃ t, shellRounds before (shellRun s m line cs) = some t ∧ t.Halts ∧
        ∃ shown, SessionDoes s.view (cs.filterMap keyOf) before t.shell.view t.keys shown ∧
          t.monitor = monitorWrite m (shellHelp ++ shown)
    | some t => (∃ kids', ShellInv hello others t.shell kids') ∧
        ∃ shown, SessionDoes s.view (cs.filterMap keyOf) rounds t.shell.view t.keys shown ∧
          t.monitor = monitorWrite m (shellHelp ++ shown) := by
  have start : (shellRun s m line cs).Did hello others s.view (cs.filterMap keyOf) (monitorWrite m shellHelp) 0 :=
    ⟨⟨kids, inv⟩, [], .start, rfl⟩
  have did := shellRounds_did start rounds
  rw [Nat.zero_add] at did
  generalize shellRounds rounds (shellRun s m line cs) = found at did ⊢
  cases found with
  | none =>
    obtain ⟨before, less, t, run, ⟨_, shown, session, screen⟩, halts⟩ := did
    rw [Nat.zero_add] at session
    exact ⟨before, less, t, run, halts, shown, session, screen.trans (monitorWrite_append ..).symm⟩
  | some t =>
    obtain ⟨after, shown, session, screen⟩ := did
    exact ⟨after, shown, session, screen.trans (monitorWrite_append ..).symm⟩

/-- The shell after the boot, with a volume that has no files. -/
def bootShell : Shell :=
  ⟨heapInit (fun _ => 0) kernelHeap.start kernelHeap.size, ramfsInit blankFs 0x200000, emptyDisk,
    ⟨0, fun _ => 0, 0, 0, 0, 0⟩⟩

theorem bootShell_inv : ShellInv 0x200000 [] bootShell [1] := by
  refine ⟨⟨⟨ramfsInit_tree blankFs 0x200000, Held.init (r := kernelHeap) (fun _ => 0) (by decide),
    fun c member p owner => ?_, by decide, by decide⟩, rfl⟩, ?_, by decide, by decide⟩
  · have static : dataOwner (bootShell.fs.nodes 1) = none := rfl
    rw [List.mem_singleton.mp member, static] at owner
    cases owner
  · exact fun fi member => absurd member List.not_mem_nil

/-- `touch a`, Enter, `ls` and Enter. -/
def bootKeys : List Int := [116, 111, 117, 99, 104, 32, 97, 10, 108, 115, 10]

/-- Both lines are read and done. -/
theorem shell_session_refines_boot :
    ∃ t, shellRounds 2 (shellRun bootShell clearScreen (fun _ => 0) bootKeys) = some t ∧
      (∃ kids', ShellInv 0x200000 [] t.shell kids') ∧
      ∃ shown, SessionDoes bootShell.view (bootKeys.filterMap keyOf) 2 t.shell.view t.keys shown ∧
        t.monitor = monitorWrite clearScreen (shellHelp ++ shown) := by
  have done : (shellRounds 2 (shellRun bootShell clearScreen (fun _ => 0) bootKeys)).isSome = true := by decide +kernel
  obtain ⟨t, run⟩ := Option.isSome_iff_exists.mp done
  have session := shell_session_refines bootShell_inv clearScreen (fun _ => 0) bootKeys 2
  rw [run] at session
  exact ⟨t, run, session⟩

end LearningOS
