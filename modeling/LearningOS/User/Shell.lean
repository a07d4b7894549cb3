import LearningOS.Fat.Contents
import LearningOS.Frames.Model
import LearningOS.Fs.ReadExact
import LearningOS.Fs.Simulation
import LearningOS.Io.Kprintf
import LearningOS.Io.Readline
import LearningOS.User.CommandLine
import LearningOS.Fs.Paths

namespace LearningOS
open ByteStore NulText LineEdit Kprintf

/-- What the commands of `shell.c` work on. -/
structure Shell where
  heap : Heap
  fs : Ramfs
  fat : FatState
  frames : Frames

/-- What a command leaves, and the characters it puts out. -/
structure ShellSaid where
  shell : Shell
  out : List UInt8

/-- A text and the end of its row. -/
def shellLine (text : String) : List UInt8 := ascii text ++ [10]

/-- `kprintf` of a string and of an unsigned number. -/
def shownString (s : List UInt8) : List UInt8 := printString s 0 32

def shownNumber (n : Nat) : List UInt8 := printUintBase n 10 0 32 false

def shellHelp : List UInt8 :=
  ["Commands:", "  help [cmd]", "  ls [path]", "  cat <path>", "  fatls", "  fatcat <file>", "  fatwrite <file> <text>",
    "  mkdir <name>", "  touch <name>", "  rm <name>", "  heap", "  mem"].flatMap shellLine

/-- The commands that `shell_help_cmd` knows, with their usage. -/
def shellUsages : List (String × String) :=
  [("ls", "usage: ls [path]"), ("cat", "usage: cat <path>"), ("fatls", "usage: fatls"),
    ("fatcat", "usage: fatcat <file>"), ("fatwrite", "usage: fatwrite <file> <text>"), ("mkdir", "usage: mkdir <name>"),
    ("touch", "usage: touch <name>"), ("rm", "usage: rm <name>"), ("heap", "usage: heap"), ("mem", "usage: mem")]

/-- `shell_help_cmd`; a null pointer is as good as an empty string to it and to `shell_ls_path`. -/
def shellHelpCmd (cmd : List UInt8) : List UInt8 :=
  if cmd = [] then shellHelp
  else
    match shellUsages.find? fun usage => ascii usage.1 = cmd with
    | some usage => shellLine usage.2
    | none => shellLine "unknown command"

/-- The loop of `shell_ls_path`, from an index on. -/
def lsLoop (fs : Ramfs) (node : Fin 9) : Nat → Nat → Option (List UInt8)
  | 0, _ => none
  | rounds + 1, i =>
    match vfsReaddir fs (some node) i with
    | none => some []
    | some ent => (lsLoop fs node rounds (u32 (i + 1))).map (shownString ent.name ++ [10] ++ ·)

def shellLsPath (fs : Ramfs) (path : List UInt8) : Option (List UInt8) :=
  match if path = [] then fs.vfsRoot else vfsResolvePath fs path with
  | none => some (shellLine "not found")
  | some node => if (fs.nodes node).flags = .dir then lsLoop fs node walkLimit 0 else some (shellLine "not a directory")

def shellCatPath (h : Heap) (fs : Ramfs) (path : List UInt8) : Option (List UInt8) :=
  if path = [] then some (shellLine "usage: cat <path>")
  else
    match vfsResolvePath fs path with
    | none => some (shellLine "not found")
    | some node => (shellCat h.mem fs (some node) walkLimit).map (· ++ [10])

/-- `shell_fatls`, with `fat_list_root` of 16 entries. -/
def shellFatls (s : FatState) : List UInt8 :=
  if s.files.length = 0 then shellLine "fat: no entries"
  else (s.files.take 16).flatMap fun fi => shownString fi.name ++ ascii " (" ++ shownNumber fi.size ++ shellLine ")"

def shellFatcat (s : FatState) (name : List UInt8) : Option (FatState × List UInt8) :=
  if name = [] then some (s, shellLine "usage: fatcat <file>")
  else
    match fatReadFile s (some name) true 1024 with
    | .error _ => none
    | .ok (s, n, buf) => some (s, if n ≤ 0 then shellLine "fat: not found or read failed" else buf.take n.toNat ++ [10])

def shellFatwrite (s : FatState) (name text : List UInt8) : Option (FatState × List UInt8) :=
  if name = [] then some (s, shellLine "usage: fatwrite <file> <text>")
  else
    match fatWriteFile s (some name) (some text) with
    | .error _ => none
    | .ok (s, ret) => some (s, if ret = 0 then shellLine "ok" else shellLine "fatwrite failed")

def heapReport (st : HeapStats) : List UInt8 :=
  ascii "heap: used=" ++ shownNumber st.used ++ ascii " free=" ++ shownNumber st.free ++ ascii " blocks=" ++
    shownNumber st.blocks ++ ascii " free_blocks=" ++ shownNumber st.freeBlocks ++ [10]

def shellHeap (h : Heap) : Option (List UInt8) := (heapStats h).map heapReport

def frameFreeCount (s : Frames) : Nat := if s.totalFrames < s.usedFrames then 0 else s.totalFrames - s.usedFrames

def shellMem (s : Frames) : List UInt8 :=
  ascii "frames: total=" ++ shownNumber s.totalFrames ++ ascii " used=" ++ shownNumber s.usedFrames ++ ascii " free=" ++
    shownNumber (frameFreeCount s) ++ ascii " largest_run=" ++ shownNumber (frameLargestFreeRun s) ++ [10]

/-- What the shell says of a call on ramfs that returned 0 or not. -/
def shellOk (ret : Int) (failed : String) : List UInt8 := if ret = 0 then shellLine "ok" else shellLine failed

/-- A command that needs an argument. -/
def withArgument (s : Shell) (args : List (List UInt8)) (usage : String) (run : List UInt8 → Option ShellSaid) :
    Option ShellSaid :=
  match args with
  | [] => some ⟨s, shellLine usage⟩
  | arg :: _ => run arg

def fatwriteCommand (s : Shell) : List (List UInt8) → Option ShellSaid
  | name :: text :: _ => (shellFatwrite s.fat name text).map fun (fat, out) => ⟨{ s with fat }, out⟩
  | _ => some ⟨s, shellLine "usage: fatwrite <file> <text>"⟩

def mkdirCommand (s : Shell) (name : List UInt8) : ShellSaid :=
  let (fs, ret) := ramfsMkdir s.fs name
  ⟨{ s with fs }, shellOk ret "mkdir failed"⟩

def touchCommand (s : Shell) (name : List UInt8) : ShellSaid :=
  let (fs, ret) := ramfsCreate s.fs name
  ⟨{ s with fs }, shellOk ret "touch failed"⟩

def rmCommand (s : Shell) (name : List UInt8) : Option ShellSaid :=
  (ramfsUnlink s.heap s.fs name).map fun (heap, fs, ret, _) => ⟨{ s with heap, fs }, shellOk ret "rm failed"⟩

/-- The commands of `shell_run`, by the strings `argv` points to; none if a call does not return. -/
def shellCommand (s : Shell) : List (List UInt8) → Option ShellSaid
  | [] => some ⟨s, []⟩
  | cmd :: args =>
    if cmd = ascii "help" then some ⟨s, shellHelpCmd (args.headD [])⟩
    else if cmd = ascii "ls" then (shellLsPath s.fs (args.headD [])).map (⟨s, ·⟩)
    else if cmd = ascii "cat" then
      withArgument s args "usage: cat <path>" fun path => (shellCatPath s.heap s.fs path).map (⟨s, ·⟩)
    else if cmd = ascii "fatls" then some ⟨s, shellFatls s.fat⟩
    else if cmd = ascii "fatcat" then
      withArgument s args "usage: fatcat <file>" fun name =>
        (shellFatcat s.fat name).map fun (fat, out) => ⟨{ s with fat }, out⟩
    else if cmd = ascii "fatwrite" then fatwriteCommand s args
    else if cmd = ascii "mkdir" then withArgument s args "usage: mkdir <name>" fun name => some (mkdirCommand s name)
    else if cmd = ascii "touch" then withArgument s args "usage: touch <name>" fun name => some (touchCommand s name)
    else if cmd = ascii "rm" then withArgument s args "usage: rm <name>" (rmCommand s)
    else if cmd = ascii "heap" then (shellHeap s.heap).map (⟨s, ·⟩)
    else if cmd = ascii "mem" then some ⟨s, shellMem s.frames⟩
    else some ⟨s, shellLine "unknown command"⟩

/-- The string at a place of the line. -/
def argumentAt (text : List UInt8) (p : Nat) : List UInt8 := (text.drop p).takeWhile (· ≠ 0)

/-- A session so far: the shell, the monitor, the buffer of the line, and the results of
`keyboard_getchar` that are left. -/
structure Session where
  shell : Shell
  monitor : Monitor
  line : Nat → UInt8
  cs : List Int

/-- The arguments in a buffer of 128 characters, and the buffer as `parse_line` leaves it. -/
def shellArguments (line : Nat → UInt8) : List (List UInt8) × List UInt8 :=
  let parsed := CommandLine.parseLine ((List.range 128).map line) 8
  (parsed.argv.map (argumentAt parsed.text), parsed.text)

/-- One round of the loop of `shell_run`, once it has a line and its command returns. -/
def shellRound (s : Session) : Option Session :=
  (keyboardReadline 128 (monitorWrite s.monitor (ascii "\n> ")) s.line s.cs).bind fun r =>
    if r.idx = 0 then some { s with monitor := r.monitor, line := r.out, cs := r.rest }
    else
      let (args, text) := shellArguments r.out
      if args = [] then some { s with monitor := r.monitor, line := fun i => text.getD i 0, cs := r.rest }
      else
        (shellCommand s.shell args).map fun said =>
          ⟨said.shell, monitorWrite r.monitor said.out, fun i => text.getD i 0, r.rest⟩

def shellRounds : Nat → Session → Option Session
  | 0, s => some s
  | rounds + 1, s => (shellRound s).bind (shellRounds rounds)

/-- The start of `shell_run`. -/
def shellRun (s : Shell) (m : Monitor) (line : Nat → UInt8) (cs : List Int) : Session :=
  ⟨s, monitorWrite m shellHelp, line, cs⟩

end LearningOS
